import Mathlib.Data.List.Basic
import Mathlib.Data.List.Find
import Statechart.Proofs.Token.Cuts

/-!
Lines one after the other. A lexer none of whose matches goes on behind a line end cuts the text in
front of a line end as it cuts that text alone (`Cuts.append`). What could go on are comments: one
that is open at the line end may be closed behind it, and then what is in front of it is cut in
another way. `Apart` says that this is not so.
-/

namespace Statechart

namespace Pattern

/-- A line end behind other text does not belong to a match. -/
def OneLine : Pattern → Prop
  | run _ rest => rest '\n' = false
  | spelled options => ∀ o ∈ options, '\n' ∉ o.tail
  | comment => True

instance : DecidablePred OneLine
  | run _ rest => inferInstanceAs (Decidable (rest '\n' = false))
  | spelled options => inferInstanceAs (Decidable (∀ o ∈ options, '\n' ∉ o.tail))
  | comment => inferInstanceAs (Decidable True)

/-- What comes behind the text and a line end closes no comment at the front of the text. -/
def Apart (rest x : List Char) : Prop :=
  ∀ cs, x = '/' :: '*' :: cs → closing? (cs ++ '\n' :: rest) = closing? cs

/-- No comment is open at the front of the text. -/
def Closed (x : List Char) : Prop := ∀ cs, x = '/' :: '*' :: cs → closing? cs ≠ none

theorem takeWhile_append {p : Char → Bool} {d : Char} (hd : p d = false) (cs rest : List Char) :
    (cs ++ d :: rest).takeWhile p = cs.takeWhile p := by
  induction cs with
  | nil => simp [hd]
  | cons c cs ih => simp only [List.cons_append, List.takeWhile_cons, ih]

theorem isPrefixOf_append {o : List Char} {d : Char} (ho : d ∉ o) (x rest : List Char) :
    o.isPrefixOf (x ++ d :: rest) = o.isPrefixOf x := by
  induction o generalizing x with
  | nil => simp
  | cons a o ih =>
    rw [List.mem_cons, not_or] at ho
    cases x with
    | nil => simp [List.isPrefixOf_cons_cons, Ne.symm ho.1]
    | cons c x => simp only [List.cons_append, List.isPrefixOf_cons_cons, ih ho.2]

theorem closing?_concat (cs : List Char) : closing? (cs ++ ['\n']) = closing? cs := by
  fun_induction closing? cs with
  | case1 => rfl
  | case2 c cs hne ih =>
    rw [List.cons_append, closing?, ih]
    rintro rest rfl heq
    cases cs with
    | nil => cases heq
    | cons d cs =>
      cases heq
      exact hne cs rfl rfl
  | case3 => rfl

theorem closing?_append {cs : List Char} {n : Nat} (h : closing? cs = some n) (rest : List Char) :
    closing? (cs ++ rest) = some n := by
  fun_induction closing? cs generalizing n with
  | case1 cs =>
    cases h
    rfl
  | case2 c cs hne ih =>
    obtain ⟨k, hk, rfl⟩ := Option.map_eq_some_iff.mp h
    rw [List.cons_append, closing?, ih hk]
    · rfl
    · rintro rest' rfl heq
      cases cs with
      | nil => cases hk
      | cons d cs =>
        cases heq
        exact hne cs rfl rfl
  | case3 => cases h

theorem Closed.apart {x : List Char} (h : Closed x) (rest : List Char) : Apart rest x := by
  intro cs hx
  obtain ⟨n, hn⟩ := Option.ne_none_iff_exists'.mp (h cs hx)
  rw [hn]
  exact closing?_append hn _

theorem closing?_le {cs : List Char} {n : Nat} (h : closing? cs = some n) : n ≤ cs.length := by
  fun_induction closing? cs generalizing n with
  | case1 cs =>
    cases h
    simp
  | case2 c cs _ ih =>
    obtain ⟨k, hk, rfl⟩ := Option.map_eq_some_iff.mp h
    simpa using ih hk
  | case3 => cases h

theorem size_append {p : Pattern} (hp : p.OneLine) {rest : List Char} {c : Char} {cs : List Char}
    (hapart : Apart rest (c :: cs)) :
    p.size (c :: (cs ++ '\n' :: rest)) = p.size (c :: cs) := by
  cases p with
  | run first more => simp only [size, takeWhile_append hp]
  | spelled options =>
    have hfind : options.find? (·.isPrefixOf (c :: (cs ++ '\n' :: rest))) =
        options.find? (·.isPrefixOf (c :: cs)) := by
      refine List.find?_congr fun o ho => ?_
      cases o with
      | nil => rfl
      | cons a o =>
        have ho' : '\n' ∉ o := hp (a :: o) ho
        simp only [List.isPrefixOf_cons_cons, isPrefixOf_append ho']
    simp only [size]
    rw [hfind]
  | comment =>
    cases cs with
    | nil => simp [size]
    | cons d cs =>
      by_cases hc : c = '/'
      · subst hc
        by_cases hd : d = '/'
        · subst hd
          have htake := takeWhile_append (p := (· != '\n')) (bne_self_eq_false '\n') cs rest
          simp only [List.cons_append, size, htake]
        · by_cases hd' : d = '*'
          · subst hd'
            simp only [List.cons_append, size, hapart cs rfl]
          · simp [size, hd, hd']
      · simp [size, hc]

theorem size_le (p : Pattern) (x : List Char) : p.size x ≤ x.length := by
  fun_cases size p x with
  | case1 => simp
  | case2 first rest c cs hc =>
    have hle := (List.takeWhile_prefix (l := cs) rest).length_le
    rw [List.length_cons]
    omega
  | case3 => simp
  | case4 options =>
    cases hfind : options.find? (·.isPrefixOf x) with
    | none => simp
    | some o =>
      have ho : o.isPrefixOf x = true :=
        List.find?_some (p := fun o : List Char => o.isPrefixOf x) hfind
      exact (List.isPrefixOf_iff_prefix.mp ho).length_le
  | case5 cs =>
    have hle := (List.takeWhile_prefix (l := cs) (· != '\n')).length_le
    simp only [List.length_cons]
    omega
  | case6 cs =>
    cases hclosing : closing? cs with
    | none => simp
    | some n =>
      have hle := closing?_le hclosing
      simpa using hle
  | case7 => simp

end Pattern

variable {κ : Type}

theorem Rule.match?_append {r : Rule κ} (hr : r.pattern.OneLine) {rest : List Char} {c : Char}
    {cs : List Char} (hapart : Pattern.Apart rest (c :: cs)) :
    r.match? (c :: (cs ++ '\n' :: rest)) = r.match? (c :: cs) := by
  have htake : (c :: (cs ++ '\n' :: rest)).take (r.pattern.size (c :: cs)) =
      (c :: cs).take (r.pattern.size (c :: cs)) :=
    List.take_append_of_le_length (r.pattern.size_le (c :: cs))
  rw [Rule.match?, Rule.match?, Pattern.size_append hr hapart]
  cases hn : r.pattern.size (c :: cs) with
  | zero => rfl
  | succ n =>
    rw [hn] at htake
    simp only [htake]

/-- A line end and nothing behind it closes no comment. -/
theorem Rule.match?_concat {r : Rule κ} (hr : r.pattern.OneLine) (c : Char) (cs : List Char) :
    r.match? (c :: (cs ++ ['\n'])) = r.match? (c :: cs) :=
  match?_append hr fun cs' _ => Pattern.closing?_concat cs'

namespace Lexer

variable {lx : Lexer κ}

/-- No match goes on behind a line end. -/
def OneLine (lx : Lexer κ) : Prop := ∀ r ∈ lx.rules, r.pattern.OneLine

theorem match?_append (hlx : lx.OneLine) {rest : List Char} {c : Char} {cs : List Char}
    (hapart : Pattern.Apart rest (c :: cs)) :
    lx.match? (c :: (cs ++ '\n' :: rest)) = lx.match? (c :: cs) := by
  have hrules : lx.rules.findSome? (·.match? (c :: (cs ++ '\n' :: rest))) =
      lx.rules.findSome? (·.match? (c :: cs)) := by
    rw [← List.head?_filterMap, ← List.head?_filterMap]
    exact congrArg _ (List.filterMap_congr fun r hr => Rule.match?_append (hlx r hr) hapart)
  rw [match?_cons, match?_cons, hrules]

theorem drop_append {c : Char} {cs : List Char} {m : Match κ} (hm : lx.match? (c :: cs) = some m)
    (rest : List Char) :
    (c :: (cs ++ rest)).drop m.text.length = (c :: cs).drop m.text.length ++ rest := by
  obtain ⟨tail, htext, hpre⟩ := match?_text hm
  have hle : m.text.length ≤ (c :: cs).length := by
    rw [htext]
    simpa using hpre.length_le
  exact List.drop_append_of_le_length hle

/-- The tokens of a text, and then those of a line end with what is behind it. Which tokens leave
no comment open is for the reader of the tokens to say; `P` is what it knows of them. -/
theorem Cuts.append {P : List (κ × String) → Prop} (htail : ∀ {t ts}, P (t :: ts) → P ts)
    {rest : List Char} (hapart : ∀ {x ts}, lx.Cuts x ts none → P ts → Pattern.Apart rest x)
    (hlx : lx.OneLine) {x : List Char} {ts us : List (κ × String)} {left : Option (List Char)}
    (h : lx.Cuts x ts none) (hP : P ts) (hrest : lx.Cuts ('\n' :: rest) us left) :
    lx.Cuts (x ++ '\n' :: rest) (ts ++ us) left := by
  generalize hnone : none = none' at h
  induction h with
  | nil => exact hrest
  | stuck _ _ => cases hnone
  | skip hs _ ih => exact .skip hs (ih hP hnone)
  | @drop c cs m ts _ hs hm hk hcuts ih =>
    subst hnone
    have hmatch := (match?_append hlx (hapart (.drop hs hm hk hcuts) hP)).trans hm
    rw [List.cons_append]
    refine .drop hs hmatch hk ?_
    rw [drop_append hm]
    exact ih hP rfl
  | @keep c cs m k ts _ hs hm hk hcuts ih =>
    subst hnone
    have hmatch := (match?_append hlx (hapart (.keep hs hm hk hcuts) hP)).trans hm
    rw [List.cons_append, List.cons_append]
    refine .keep hs hmatch hk ?_
    rw [drop_append hm]
    exact ih (htail hP) rfl

end Lexer

end Statechart
