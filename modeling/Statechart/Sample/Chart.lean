import Statechart.Planar.Basic

/-!
Sample planar charts of any size: a ring of states, between which transitions of all levels and
ranks go round.
-/

namespace Statechart.Sample

def ringName (i : Nat) : String := "s" ++ toString i

def ringState (i : Nat) : Option String × PlanarState :=
  let k := toString i
  (some (ringName i),
    ⟨"Top_" ++ ringName i,
      ⟨ringName i, ["en" ++ k ++ " = 1"], ["du" ++ k ++ " = du" ++ k ++ " + 1"],
        ["ex" ++ k ++ " = 0"]⟩, []⟩)

/-- A state without actions whose name is its identifier. -/
def plainState (name : String) : Option String × PlanarState :=
  (some name, ⟨name, ⟨name, [], [], []⟩, []⟩)

/-- Transition `i` between `states` states. Every third one has no condition. -/
def ringTransition (states : Nat) (fanout : Int) (i : Nat) : PlanarTransition where
  ssid := some ("tr" ++ toString i)
  source := some (ringName (i % states))
  target := some (ringName ((i + 1) % states))
  conditions := if i % 3 = 0 then [] else ["c" ++ toString i ++ " > " ++ toString i]
  actions := ["x" ++ toString i ++ " = " ++ toString i]
  level := (i % 3 + 1 : Nat)
  rank := (i % 3 : Nat)
  order := Int.fmod i fanout

def firstTransition : PlanarTransition where
  ssid := some "init"
  source := some "start"
  target := some (ringName 0)
  conditions := []
  actions := []
  level := 0
  rank := 0
  order := 0

def ringVariable (i : Nat) : Option String × Variable :=
  (some ("v" ++ toString i),
    { type := if i % 2 = 0 then .byte else .int
      const := i % 5 = 0
      init := if i % 3 = 0 then none else some (toString i)
      scope := if i % 7 = 0 then .input else .inner })

/-- The number of states with so many transitions, of which `fanout` start at each. -/
def ringSize (transitions fanout : Int) : Nat := max 2 (transitions.fdiv fanout).toNat

/-- A chart with so many transitions. -/
def chart (transitions fanout : Int) : Except Fault PlanarChart :=
  if fanout = 0 then .error .divisionByZero
  else
    let n := ringSize transitions fanout
    .ok
      { id := some "99"
        name := some "Synth"
        states := .ofList ((List.range n).map ringState ++ [plainState "start", plainState "error"])
        transitions :=
          (List.range transitions.toNat).map (ringTransition n fanout) ++ [firstTransition]
        vars := .ofList ((List.range n).map ringVariable) }

end Statechart.Sample
