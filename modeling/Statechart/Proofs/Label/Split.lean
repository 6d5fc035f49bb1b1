import Statechart.Proofs.Label.Marks

/-!
Splitting of transition labels. A label is white space, then an event, a condition in brackets, a
condition action in braces and a transition action behind a slash, each of which may be absent
(`Split`). Reading gives some parts just if the label is split into them, and there is one way to
split it (`read_iff_split`). One direction follows the text that has been read at each position
(`Stands`), the other reads the pieces of a label one after the other (`Finishes`).
-/

namespace Statechart.Label.Parts

/-! ## Nesting -/

/-- Brackets and braces of the text are nested. -/
inductive Balanced : List Char → Prop
  | nil : Balanced []
  | plain {c : Char} {cs : List Char} : (∀ p : Pair, c ≠ p.left ∧ c ≠ p.right) → Balanced cs →
      Balanced (c :: cs)
  | pair (p : Pair) {inner rest : List Char} : Balanced inner → Balanced rest →
      Balanced (p.left :: (inner ++ p.right :: rest))

/-- Text of a part: characters that start a token, and nested. -/
structure IsNested (x : List Char) : Prop where
  accepted : ∀ c ∈ x, lexer.match? [c] ≠ none
  balanced : Balanced x

theorem accepted_iff {c : Char} : lexer.match? [c] ≠ none ↔ ∃ k, markOf? c = some k := by
  obtain ⟨n, h⟩ := match?_cons c []
  rw [h, Ne, Option.map_eq_none_iff]
  exact Option.ne_none_iff_exists'

/-- The pairs that are open behind a token, by those that are open before it. -/
def turn (ps : List Pair) : Mark → Option (List Pair)
  | .opening p => some (p :: ps)
  | .closing p =>
    match ps with
    | [] => none
    | q :: ps => if p = q then some ps else none
  | _ => some ps

/-- The pairs that are open behind a text. -/
def pairsAfter (ps : List Pair) (x : List Char) : Option (List Pair) :=
  x.foldlM (fun ps c => (markOf? c).bind (turn ps)) ps

theorem pairsAfter_append (ps : List Pair) (x y : List Char) :
    pairsAfter ps (x ++ y) = (pairsAfter ps x).bind (pairsAfter · y) :=
  List.foldlM_append

theorem pairsAfter_cons {c : Char} {k : Mark} (hk : markOf? c = some k) (ps : List Pair)
    (cs : List Char) : pairsAfter ps (c :: cs) = (turn ps k).bind (pairsAfter · cs) := by
  rw [pairsAfter, List.foldlM_cons, hk]
  rfl

/-- What a token can do to the open pairs. -/
theorem turn_cases {ps ps' : List Pair} {k : Mark} (h : turn ps k = some ps') :
    (∃ p, k = .opening p ∧ ps' = p :: ps) ∨ (∃ p, k = .closing p ∧ ps = p :: ps') ∨
      (∀ p, k ≠ .opening p ∧ k ≠ .closing p) ∧ ps' = ps := by
  cases k with
  | opening p =>
    cases h
    exact .inl ⟨p, rfl, rfl⟩
  | closing p =>
    cases ps with
    | nil => cases h
    | cons q ps =>
      simp only [turn] at h
      split at h
      · next hpq =>
        cases h
        exact .inr (.inl ⟨p, rfl, hpq ▸ rfl⟩)
      · cases h
  | _ =>
    cases h
    exact .inr (.inr ⟨by simp, rfl⟩)

/-- Text that closes some pairs, the innermost first. -/
def Closes : List Pair → List Char → Prop
  | [], x => Balanced x
  | p :: ps, x => ∃ y z, Balanced y ∧ Closes ps z ∧ x = y ++ p.right :: z

theorem Closes.extend {ps : List Pair} {x : List Char} (h : Closes ps x) (before : List Char)
    (hbefore : ∀ y, Balanced y → Balanced (before ++ y)) : Closes ps (before ++ x) := by
  cases ps with
  | nil => exact hbefore x h
  | cons p ps =>
    obtain ⟨y, z, hy, hz, rfl⟩ := h
    exact ⟨before ++ y, z, hbefore y hy, hz, by simp⟩

theorem closes_of_pairsAfter {ps : List Pair} {x : List Char} (h : pairsAfter ps x = some []) :
    (∀ c ∈ x, ∃ k, markOf? c = some k) ∧ Closes ps x := by
  induction x generalizing ps with
  | nil =>
    cases h
    exact ⟨by simp, .nil⟩
  | cons c x ih =>
    obtain ⟨ps', hstep, h⟩ := Option.bind_eq_some_iff.mp h
    obtain ⟨k, hk, hturn⟩ := Option.bind_eq_some_iff.mp hstep
    obtain ⟨haccepted, hcloses⟩ := ih h
    refine ⟨List.forall_mem_cons.mpr ⟨⟨k, hk⟩, haccepted⟩, ?_⟩
    rcases turn_cases hturn with ⟨p, rfl, rfl⟩ | ⟨p, rfl, rfl⟩ | ⟨hplain, rfl⟩
    · obtain rfl := eq_of_markOf? rfl hk
      obtain ⟨y, z, hy, hz, rfl⟩ := hcloses
      have hpair := hz.extend (p.left :: (y ++ [p.right])) fun w hw => by simpa using .pair p hy hw
      simpa using hpair
    · obtain rfl := eq_of_markOf? rfl hk
      exact ⟨[], x, .nil, hcloses, rfl⟩
    · refine hcloses.extend [c] fun y hy => .plain (fun p => ⟨?_, ?_⟩) hy
      · rintro rfl
        rw [markOf?_left p] at hk
        exact (hplain p).1 (Option.some.inj hk).symm
      · rintro rfl
        rw [markOf?_right p] at hk
        exact (hplain p).2 (Option.some.inj hk).symm

theorem pairsAfter_of_balanced {x : List Char} (h : Balanced x)
    (haccepted : ∀ c ∈ x, ∃ k, markOf? c = some k) (ps : List Pair) :
    pairsAfter ps x = some ps := by
  induction h generalizing ps with
  | nil => rfl
  | @plain c cs hc _ ih =>
    rw [List.forall_mem_cons] at haccepted
    obtain ⟨⟨k, hk⟩, haccepted⟩ := haccepted
    have hturn : turn ps k = some ps := by
      cases k with
      | opening p => exact absurd (eq_of_markOf? rfl hk) (hc p).1
      | closing p => exact absurd (eq_of_markOf? rfl hk) (hc p).2
      | _ => rfl
    rw [pairsAfter_cons hk, hturn]
    exact ih haccepted ps
  | @pair p inner rest _ _ ihinner ihrest =>
    rw [List.forall_mem_cons, List.forall_mem_append, List.forall_mem_cons] at haccepted
    obtain ⟨-, hinner, -, hrest⟩ := haccepted
    rw [pairsAfter_cons (markOf?_left p)]
    show pairsAfter (p :: ps) (inner ++ p.right :: rest) = some ps
    rw [pairsAfter_append, ihinner hinner, Option.bind_some,
      pairsAfter_cons (markOf?_right p)]
    rw [turn, if_pos rfl]
    exact ihrest hrest ps

theorem isNested_iff {x : List Char} : IsNested x ↔ pairsAfter [] x = some [] := by
  constructor
  · rintro ⟨haccepted, hbalanced⟩
    exact pairsAfter_of_balanced hbalanced (fun c hc => accepted_iff.mp (haccepted c hc)) []
  · intro h
    obtain ⟨haccepted, hcloses⟩ := closes_of_pairsAfter h
    exact ⟨fun c hc => accepted_iff.mpr (haccepted c hc), hcloses⟩

/-- The pairs behind a token, whatever its length. -/
theorem pairsAfter_token {k : Mark} {text : String} (h : IsToken (k, text)) (ps : List Pair) :
    pairsAfter ps text.toList = turn ps k := by
  have hplain : turn ps k = some ps → (∀ c ∈ text.toList, markOf? c = some k) →
      pairsAfter ps text.toList = some ps := by
    intro hturn
    generalize text.toList = x
    intro hx
    induction x with
    | nil => rfl
    | cons c x ih =>
      rw [List.forall_mem_cons] at hx
      rw [pairsAfter_cons hx.1, hturn]
      exact ih hx.2
  cases k with
  | opening p =>
    rw [h.delimiter rfl, pairsAfter_cons (markOf?_left p)]
    rfl
  | closing p =>
    rw [h.delimiter rfl, pairsAfter_cons (markOf?_right p)]
    cases turn ps (.closing p) <;> rfl
  | _ => exact hplain rfl h.mark

theorem grow_eq_more {n n' : Nested} {k : Mark} {text : String} :
    n.grow k text = .more n' ↔ turn n.pairs k = some n'.pairs ∧ n'.text = n.text ++ text := by
  obtain ⟨t, ps⟩ := n
  obtain ⟨t', ps'⟩ := n'
  cases k with
  | closing p =>
    cases ps with
    | nil => simp [Nested.grow, turn]
    | cons q ps =>
      by_cases hpq : p = q
      · simp [Nested.grow, turn, hpq, and_comm, eq_comm]
      · simp [Nested.grow, turn, hpq]
  | _ => simp [Nested.grow, turn, and_comm, eq_comm]

theorem grow_eq_closed {n : Nested} {k : Mark} {text : String} {p : Pair}
    (h : n.grow k text = .closed p) : k = .closing p ∧ n.pairs = [] := by
  obtain ⟨t, ps⟩ := n
  cases k with
  | closing q =>
    cases ps with
    | nil =>
      cases h
      exact ⟨rfl, rfl⟩
    | cons q' ps =>
      simp only [Nested.grow] at h
      split at h <;> cases h
  | _ => cases h

/-! ## What a label is -/

/-- White space within lines, and line ends. -/
def IsBlank (b : List Char) : Prop := ∀ c ∈ b, isSpace c = true ∨ c = '\n'

/-- An event with white space behind it. -/
def IsEvent : Option String → List Char → Prop
  | none, t => t = []
  | some w, t => ∃ b, Text.IsWord w.toList ∧ IsBlank b ∧ t = w.toList ++ b

/-- Nested text between the characters of a pair, with white space behind it. -/
def IsEnclosed (p : Pair) : Option String → List Char → Prop
  | none, t => t = []
  | some x, t => ∃ b, IsNested x.toList ∧ IsBlank b ∧ t = p.left :: (x.toList ++ p.right :: b)

/-- Nested text behind a slash. -/
def IsSlashed : Option String → List Char → Prop
  | none, t => t = []
  | some x, t => IsNested x.toList ∧ t = '/' :: x.toList

/-- The text is split into the parts. -/
def Split (t : List Char) (p : Parts) : Prop :=
  ∃ lead e c ca ta, IsBlank lead ∧ IsEvent p.event e ∧ IsEnclosed .bracket p.condition c ∧
    IsEnclosed .brace p.conditionAction ca ∧ IsSlashed p.transitionAction ta ∧
    t = lead ++ (e ++ (c ++ (ca ++ ta)))

section

variable {t b x : List Char} {event? condition? action? : Option String}

theorem IsBlank.append (h : IsBlank t) (hb : IsBlank b) : IsBlank (t ++ b) :=
  List.forall_mem_append.mpr ⟨h, hb⟩

theorem IsEvent.blank {w : String} (h : IsEvent (some w) t) (hb : IsBlank b) :
    IsEvent (some w) (t ++ b) := by
  obtain ⟨b', hw, hb', rfl⟩ := h
  exact ⟨b' ++ b, hw, hb'.append hb, by simp⟩

theorem IsEnclosed.blank {p : Pair} {x : String} (h : IsEnclosed p (some x) t) (hb : IsBlank b) :
    IsEnclosed p (some x) (t ++ b) := by
  obtain ⟨b', hx, hb', rfl⟩ := h
  exact ⟨b' ++ b, hx, hb'.append hb, by simp⟩

/-- White space may follow until the transition action starts. -/
theorem Split.blank (h : Split t ⟨event?, condition?, action?, none⟩) (hb : IsBlank b) :
    Split (t ++ b) ⟨event?, condition?, action?, none⟩ := by
  obtain ⟨lead, e, c, ca, ta, hlead, he, hc, hca, rfl, rfl⟩ := h
  -- it belongs to the last part that is there
  cases action? with
  | some x => exact ⟨lead, e, c, ca ++ b, [], hlead, he, hc, hca.blank hb, rfl, by simp⟩
  | none =>
    obtain rfl := hca
    cases condition? with
    | some x => exact ⟨lead, e, c ++ b, [], [], hlead, he, hc.blank hb, rfl, rfl, by simp⟩
    | none =>
      obtain rfl := hc
      cases event? with
      | some w => exact ⟨lead, e ++ b, [], [], [], hlead, he.blank hb, rfl, rfl, rfl, by simp⟩
      | none =>
        obtain rfl := he
        exact ⟨lead ++ b, [], [], [], [], hlead.append hb, rfl, rfl, rfl, rfl, by simp⟩

theorem isBlank_nil : IsBlank [] := by simp [IsBlank]

theorem split_nil : Split [] ⟨none, none, none, none⟩ :=
  ⟨[], [], [], [], [], isBlank_nil, rfl, rfl, rfl, rfl, rfl⟩

theorem Split.event {w : String} (h : Split t ⟨none, none, none, none⟩)
    (hw : Text.IsWord w.toList) : Split (t ++ w.toList) ⟨some w, none, none, none⟩ := by
  obtain ⟨lead, _, _, _, _, hlead, rfl, rfl, rfl, rfl, rfl⟩ := h
  exact ⟨lead, w.toList, [], [], [], hlead, ⟨[], hw, isBlank_nil, by simp⟩, rfl, rfl, rfl, by simp⟩

theorem isEnclosed_closed (p : Pair) {x : String} (hx : IsNested x.toList) :
    IsEnclosed p (some x) (p.left :: (x.toList ++ [p.right])) :=
  ⟨[], hx, isBlank_nil, rfl⟩

theorem Split.condition {x : String} (h : Split t ⟨event?, none, none, none⟩)
    (hx : IsNested x.toList) :
    Split (t ++ Pair.bracket.left :: (x.toList ++ [Pair.bracket.right]))
      ⟨event?, some x, none, none⟩ := by
  obtain ⟨lead, e, _, _, _, hlead, he, rfl, rfl, rfl, rfl⟩ := h
  exact ⟨lead, e, _, [], [], hlead, he, isEnclosed_closed .bracket hx, rfl, rfl, by simp⟩

theorem Split.conditionAction {x : String} (h : Split t ⟨event?, condition?, none, none⟩)
    (hx : IsNested x.toList) :
    Split (t ++ Pair.brace.left :: (x.toList ++ [Pair.brace.right]))
      ⟨event?, condition?, some x, none⟩ := by
  obtain ⟨lead, e, c, _, _, hlead, he, hc, rfl, rfl, rfl⟩ := h
  exact ⟨lead, e, c, _, [], hlead, he, hc, isEnclosed_closed .brace hx, rfl, by simp⟩

theorem Split.transitionAction {x : String} (h : Split t ⟨event?, condition?, action?, none⟩)
    (hx : IsNested x.toList) :
    Split (t ++ '/' :: x.toList) ⟨event?, condition?, action?, some x⟩ := by
  obtain ⟨lead, e, c, ca, _, hlead, he, hc, hca, rfl, rfl⟩ := h
  exact ⟨lead, e, c, ca, _, hlead, he, hc, hca, ⟨hx, rfl⟩, by simp⟩

end

/-! ## Steps -/

def next (s : State) (t : Piece) : Option State :=
  match s.next t.1 t.2 with
  | .ok s' => s'
  | .error _ => none

theorem advances : reader.Advances next := by
  intro s t s'
  simp only [reader, step, next, Token.bare]
  rcases hn : s.next t.kind t.text with _ | _ | u
  · simp [bind, Except.bind]
  · simp [bind, Except.bind, throw, throwThe, MonadExceptOf.throw]
  · simp [bind, Except.bind, pure, Except.pure]

theorem next_condition (ps : Parts) (n : Nested) (k : Mark) (text : String) :
    next ⟨ps, .condition n⟩ (k, text) = match n.grow k text with
      | .more n' => some ⟨ps, .condition n'⟩
      | .closed .bracket => some ⟨{ ps with condition := some n.text }, .afterCondition⟩
      | _ => none := rfl

theorem next_conditionAction (ps : Parts) (n : Nested) (k : Mark) (text : String) :
    next ⟨ps, .conditionAction n⟩ (k, text) = match n.grow k text with
      | .more n' => some ⟨ps, .conditionAction n'⟩
      | .closed .brace => some ⟨{ ps with conditionAction := some n.text }, .afterAction⟩
      | _ => none := rfl

theorem next_transitionAction (ps : Parts) (n : Nested) (k : Mark) (text : String) :
    next ⟨ps, .transitionAction n⟩ (k, text) = match n.grow k text with
      | .more n' => some ⟨ps, .transitionAction n'⟩
      | _ => none := rfl

theorem next_bareStart (ps : Parts) (k : Mark) (text : String) :
    next ⟨ps, .bareStart⟩ (k, text) = match blankNested.grow k text with
      | .more n' => some ⟨ps, .bare n'⟩
      | _ => none := rfl

theorem next_bare (ps : Parts) (n : Nested) (k : Mark) (text : String) :
    next ⟨ps, .bare n⟩ (k, text) = match n.grow k text with
      | .more n' => some ⟨ps, .bare n'⟩
      | _ => none := by
  unfold next State.next
  dsimp only
  cases n.grow k text <;> rfl

/-- The text of a part so far, with the pairs that are open in it. -/
def IsOpen (n : Nested) : Prop := pairsAfter [] n.text.toList = some n.pairs

theorem isOpen_blankNested : IsOpen blankNested := rfl

theorem IsOpen.grow {n n' : Nested} {k : Mark} {text : String} (h : IsOpen n)
    (ht : IsToken (k, text)) (hgrow : n.grow k text = .more n') : IsOpen n' ∧
      ∀ t d, (t ++ d :: n.text.toList) ++ text.toList = t ++ d :: n'.text.toList := by
  obtain ⟨hturn, htext⟩ := grow_eq_more.mp hgrow
  have htext : n'.text.toList = n.text.toList ++ text.toList := by rw [htext, String.toList_append]
  refine ⟨?_, fun t d => by simp [htext]⟩
  rw [IsOpen, htext, pairsAfter_append, h, Option.bind_some, pairsAfter_token ht, hturn]

theorem IsOpen.close {n : Nested} {k : Mark} {text : String} {p : Pair} (h : IsOpen n)
    (ht : IsToken (k, text)) (hgrow : n.grow k text = .closed p) : IsNested n.text.toList ∧
      ∀ t d, (t ++ d :: n.text.toList) ++ text.toList = t ++ d :: (n.text.toList ++ [p.right]) := by
  obtain ⟨rfl, hpairs⟩ := grow_eq_closed hgrow
  refine ⟨?_, fun t d => by simp [ht.delimiter rfl]⟩
  rw [isNested_iff, h, hpairs]

theorem IsOpen.isNested {text : String} (h : IsOpen ⟨text, []⟩) : IsNested text.toList :=
  isNested_iff.mpr h

/-- The text that has been read when a reading has come to a state. -/
inductive Stands : State → List Char → Prop
  | outset {t : List Char} : Split t ⟨none, none, none, none⟩ →
      Stands ⟨⟨none, none, none, none⟩, .outset⟩ t
  | afterEvent {t : List Char} {e : Option String} : Split t ⟨e, none, none, none⟩ →
      Stands ⟨⟨e, none, none, none⟩, .afterEvent⟩ t
  | condition {t : List Char} {e : Option String} {n : Nested} : Split t ⟨e, none, none, none⟩ →
      IsOpen n → Stands ⟨⟨e, none, none, none⟩, .condition n⟩
        (t ++ Pair.bracket.left :: n.text.toList)
  | afterCondition {t : List Char} {e c : Option String} : Split t ⟨e, c, none, none⟩ →
      Stands ⟨⟨e, c, none, none⟩, .afterCondition⟩ t
  | conditionAction {t : List Char} {e c : Option String} {n : Nested} :
      Split t ⟨e, c, none, none⟩ → IsOpen n →
      Stands ⟨⟨e, c, none, none⟩, .conditionAction n⟩ (t ++ Pair.brace.left :: n.text.toList)
  | afterAction {t : List Char} {e c a : Option String} : Split t ⟨e, c, a, none⟩ →
      Stands ⟨⟨e, c, a, none⟩, .afterAction⟩ t
  | transitionAction {t : List Char} {e c a : Option String} {n : Nested} :
      Split t ⟨e, c, a, none⟩ → IsOpen n →
      Stands ⟨⟨e, c, a, none⟩, .transitionAction n⟩ (t ++ '/' :: n.text.toList)
  -- text without braces is refused in the end, so nothing has to be known of it
  | bareStart (p : Parts) (t : List Char) : Stands ⟨p, .bareStart⟩ t
  | bare (p : Parts) (n : Nested) (t : List Char) : Stands ⟨p, .bare n⟩ t

section

variable {t : List Char} {e c a : Option String} {k : Mark} {text : String}

theorem IsToken.isBlank (h : IsToken (k, text)) (hk : k = .space ∨ k = .newline) :
    IsBlank text.toList := by
  intro d hd
  have hmark := h.mark d hd
  rcases hk with rfl | rfl
  · exact .inl (runsOn_of_markOf? rfl hmark)
  · exact .inr (beq_iff_eq.mp (runsOn_of_markOf? rfl hmark))

theorem IsToken.isWord (h : IsToken (.word, text)) : Text.IsWord text.toList := by
  refine ⟨?_, fun d hd => runsOn_of_markOf? rfl (h.mark d hd)⟩
  obtain ⟨d, run, htext, -⟩ := h
  simp [htext]

theorem stands_bracket (h : Split t ⟨e, none, none, none⟩)
    (ht : IsToken (.opening .bracket, text)) :
    Stands ⟨⟨e, none, none, none⟩, .condition blankNested⟩ (t ++ text.toList) := by
  rw [ht.delimiter rfl]
  exact .condition h isOpen_blankNested

theorem stands_brace (h : Split t ⟨e, c, none, none⟩) (ht : IsToken (.opening .brace, text)) :
    Stands ⟨⟨e, c, none, none⟩, .conditionAction blankNested⟩ (t ++ text.toList) := by
  rw [ht.delimiter rfl]
  exact .conditionAction h isOpen_blankNested

theorem stands_slash (h : Split t ⟨e, c, a, none⟩) (ht : IsToken (.slash, text)) :
    Stands ⟨⟨e, c, a, none⟩, .transitionAction blankNested⟩ (t ++ text.toList) := by
  rw [ht.delimiter rfl]
  exact .transitionAction h isOpen_blankNested

theorem Stands.next {s s' : State} (h : Stands s t) (ht : IsToken (k, text))
    (hnext : next s (k, text) = some s') : Stands s' (t ++ text.toList) := by
  cases h with
  | outset h =>
    cases k with
    | space => cases hnext; exact .outset (h.blank (ht.isBlank (.inl rfl)))
    | newline => cases hnext; exact .outset (h.blank (ht.isBlank (.inr rfl)))
    | word => cases hnext; exact .afterEvent (h.event ht.isWord)
    | opening p =>
      cases p with
      | bracket => cases hnext; exact stands_bracket h ht
      | brace => cases hnext; exact stands_brace h ht
    | slash => cases hnext; exact stands_slash h ht
    | _ => cases hnext
  | afterEvent h =>
    cases k with
    | space => cases hnext; exact .afterEvent (h.blank (ht.isBlank (.inl rfl)))
    | newline => cases hnext; exact .afterEvent (h.blank (ht.isBlank (.inr rfl)))
    | opening p =>
      cases p with
      | bracket => cases hnext; exact stands_bracket h ht
      | brace => cases hnext; exact stands_brace h ht
    | slash => cases hnext; exact stands_slash h ht
    | _ => cases hnext
  | @condition _ _ n h hopen =>
    rw [next_condition] at hnext
    split at hnext
    · next n' hgrow =>
      cases hnext
      obtain ⟨hopen', htext⟩ := hopen.grow ht hgrow
      rw [htext]
      exact .condition h hopen'
    · next hgrow =>
      cases hnext
      obtain ⟨hnested, htext⟩ := hopen.close ht hgrow
      rw [htext]
      exact .afterCondition (h.condition hnested)
    · cases hnext
  | afterCondition h =>
    cases k with
    | space => cases hnext; exact .afterCondition (h.blank (ht.isBlank (.inl rfl)))
    | newline => cases hnext; exact .afterCondition (h.blank (ht.isBlank (.inr rfl)))
    | word | other => cases hnext; exact .bareStart ..
    | opening p =>
      cases p with
      | bracket => cases hnext
      | brace => cases hnext; exact stands_brace h ht
    | slash => cases hnext; exact stands_slash h ht
    | _ => cases hnext
  | @conditionAction _ _ _ n h hopen =>
    rw [next_conditionAction] at hnext
    split at hnext
    · next n' hgrow =>
      cases hnext
      obtain ⟨hopen', htext⟩ := hopen.grow ht hgrow
      rw [htext]
      exact .conditionAction h hopen'
    · next hgrow =>
      cases hnext
      obtain ⟨hnested, htext⟩ := hopen.close ht hgrow
      rw [htext]
      exact .afterAction (h.conditionAction hnested)
    · cases hnext
  | afterAction h =>
    cases k with
    | space => cases hnext; exact .afterAction (h.blank (ht.isBlank (.inl rfl)))
    | newline => cases hnext; exact .afterAction (h.blank (ht.isBlank (.inr rfl)))
    | slash => cases hnext; exact stands_slash h ht
    | _ => cases hnext
  | @transitionAction _ _ _ _ n h hopen =>
    rw [next_transitionAction] at hnext
    split at hnext
    · next n' hgrow =>
      cases hnext
      obtain ⟨hopen', htext⟩ := hopen.grow ht hgrow
      rw [htext]
      exact .transitionAction h hopen'
    · cases hnext
  | bareStart p t =>
    rw [next_bareStart] at hnext
    split at hnext
    · cases hnext
      exact .bare ..
    · cases hnext
  | bare p n t =>
    rw [next_bare] at hnext
    split at hnext
    · cases hnext
      exact .bare ..
    · cases hnext

end

theorem Stands.run {ts : List Piece} {s s' : State} {t : List Char} (h : Stands s t)
    (hts : ∀ u ∈ ts, IsToken u) (hrun : ts.foldlM Parts.next s = some s') :
    Stands s' (t ++ ts.flatMap (·.2.toList)) := by
  induction ts generalizing s t with
  | nil =>
    cases hrun
    simpa using h
  | cons u ts ih =>
    obtain ⟨s₁, hs₁, hrun⟩ := Option.bind_eq_some_iff.mp hrun
    rw [List.forall_mem_cons] at hts
    rw [List.flatMap_cons, ← List.append_assoc]
    exact ih (h.next hts.1 hs₁) hts.2 hrun

theorem Stands.split {s : State} {t : List Char} {p : Parts} (h : Stands s t)
    (hfinish : finish s = .ok p) : Split t p := by
  cases h with
  | outset h => cases hfinish; exact h
  | afterEvent h => cases hfinish; exact h
  | condition h hopen => cases hfinish
  | afterCondition h => cases hfinish; exact h
  | conditionAction h hopen => cases hfinish
  | afterAction h => cases hfinish; exact h
  | @transitionAction _ _ _ _ n h hopen =>
    obtain ⟨text, ps⟩ := n
    cases ps with
    | nil => cases hfinish; exact h.transitionAction hopen.isNested
    | cons q ps => cases hfinish
  | bareStart p t => cases hfinish
  | bare p n t =>
    obtain ⟨text, ps⟩ := n
    cases ps <;> cases hfinish

/-! ## Reading the pieces of a label -/

/-- The text is read from one state to another. -/
def Reads (s : State) (x : List Char) (s' : State) : Prop :=
  ∃ ts, Lexed x ts ∧ ts.foldlM next s = some s'

theorem reads_nil (s : State) : Reads s [] s := ⟨[], .nil, rfl⟩

theorem Reads.append {s u v : State} {x y : List Char} (h : Reads s x u) (h' : Reads u y v)
    (hapart : Apart x y) : Reads s (x ++ y) v := by
  obtain ⟨ts, hts, hrun⟩ := h
  obtain ⟨us, hus, hrun'⟩ := h'
  refine ⟨ts ++ us, hts.append hus hapart, ?_⟩
  rw [List.foldlM_append, hrun]
  exact hrun'

/-- A delimiter is read, and text behind it. -/
theorem Reads.delimiter {s u v : State} {k : Mark} {d : Char} {x : List Char}
    (hd : k.char? = some d) (hnext : next s (k, String.ofList [d]) = some u) (h : Reads u x v) :
    Reads s (d :: x) v := by
  have hchar : Reads s [d] u := by
    refine ⟨[(k, String.ofList [d])], ?_, ?_⟩
    · exact @Lexed.cons d [] [] k [] (markOf?_char hd) (by simp) (by simp) .nil
    · simpa using hnext
  exact hchar.append h (apart_delimiter hd x)

theorem IsBlank.mark {b : List Char} (hb : IsBlank b) {c : Char} (hc : c ∈ b) :
    markOf? c = some .space ∨ markOf? c = some .newline := by
  rcases hb c hc with hspace | rfl
  · exact .inl (markOf?_of_runsOn (k := .space) hspace)
  · exact .inr rfl

/-- Positions between the parts. -/
def isBetween : Position → Bool
  | .outset | .afterEvent | .afterCondition | .afterAction => true
  | _ => false

/-- White space between the parts is passed over. -/
theorem reads_blank {b : List Char} (hb : IsBlank b) (ps : Parts) {p : Position}
    (hp : isBetween p = true) : Reads ⟨ps, p⟩ b ⟨ps, p⟩ := by
  obtain ⟨ts, hts⟩ := exists_lexed b fun c hc => by
    rcases hb.mark hc with hmark | hmark <;> simp [hmark]
  refine ⟨ts, hts, ?_⟩
  have hgap : ∀ t ∈ ts, t.1 = .space ∨ t.1 = .newline := by
    intro t ht
    obtain ⟨c, run, htext, hk, -⟩ := hts.isToken t ht
    have hc : c ∈ b := by
      rw [← hts.flatMap_text, List.mem_flatMap]
      exact ⟨t, ht, by simp [htext]⟩
    rcases hb.mark hc with hmark | hmark
    · exact .inl (Option.some.inj (hk.symm.trans hmark))
    · exact .inr (Option.some.inj (hk.symm.trans hmark))
  clear hts
  induction ts with
  | nil => rfl
  | cons t ts ih =>
    obtain ⟨k, text⟩ := t
    rw [List.forall_mem_cons] at hgap
    have hstep : next ⟨ps, p⟩ (k, text) = some ⟨ps, p⟩ := by
      rcases hgap.1 with hk | hk <;> cases hk <;> cases p <;> first | rfl | cases hp
    rw [List.foldlM_cons, hstep]
    exact ih hgap.2

theorem reads_event {w : String} (hw : Text.IsWord w.toList) :
    Reads ⟨⟨none, none, none, none⟩, .outset⟩ w.toList
      ⟨⟨some w, none, none, none⟩, .afterEvent⟩ := by
  obtain ⟨hne, hall⟩ := hw
  obtain ⟨c, run, hcs⟩ := List.exists_cons_of_ne_nil hne
  rw [hcs, List.forall_mem_cons] at hall
  refine ⟨[(.word, w)], ?_, rfl⟩
  have hlexed := @Lexed.cons c run [] .word [] (markOf?_of_runsOn (k := .word) hall.1) hall.2
    (by simp) .nil
  rwa [List.append_nil, ← hcs, String.ofList_toList] at hlexed

/-- A position grows with the nested text that is read there. -/
def Grows (f : Nested → Position) : Prop :=
  ∀ ps n n' k text, n.grow k text = .more n' → next ⟨ps, f n⟩ (k, text) = some ⟨ps, f n'⟩

theorem Grows.foldlM {f : Nested → Position} (hf : Grows f) {ts : List Piece}
    (hts : ∀ t ∈ ts, IsToken t) (ps : Parts) {n : Nested} {pairs : List Pair}
    (h : pairsAfter n.pairs (ts.flatMap (·.2.toList)) = some pairs) :
    ts.foldlM next ⟨ps, f n⟩ =
      some ⟨ps, f ⟨n.text ++ String.ofList (ts.flatMap (·.2.toList)), pairs⟩⟩ := by
  induction ts generalizing n with
  | nil =>
    cases h
    simp
  | cons t ts ih =>
    obtain ⟨k, text⟩ := t
    rw [List.forall_mem_cons] at hts
    rw [List.flatMap_cons, pairsAfter_append, pairsAfter_token hts.1] at h
    obtain ⟨pairs', hturn, h⟩ := Option.bind_eq_some_iff.mp h
    have hgrow : n.grow k text = .more ⟨n.text ++ text, pairs'⟩ := grow_eq_more.mpr ⟨hturn, rfl⟩
    rw [List.foldlM_cons, hf ps n _ k text hgrow]
    show ts.foldlM next ⟨ps, f ⟨n.text ++ text, pairs'⟩⟩ = _
    rw [ih hts.2 h]
    simp [String.append_assoc]

theorem Grows.reads {f : Nested → Position} (hf : Grows f) (ps : Parts) {x : String}
    (hx : IsNested x.toList) : Reads ⟨ps, f blankNested⟩ x.toList ⟨ps, f ⟨x, []⟩⟩ := by
  obtain ⟨ts, hts⟩ := exists_lexed x.toList fun c hc => by
    obtain ⟨k, hk⟩ := accepted_iff.mp (hx.accepted c hc)
    simp [hk]
  refine ⟨ts, hts, ?_⟩
  have hpairs : pairsAfter blankNested.pairs (ts.flatMap (·.2.toList)) = some [] := by
    rw [hts.flatMap_text]
    exact isNested_iff.mp hx
  rw [hf.foldlM hts.isToken ps hpairs, hts.flatMap_text]
  simp [blankNested]

theorem grows_condition : Grows .condition := by
  intro ps n n' k text h
  rw [next_condition, h]

theorem grows_conditionAction : Grows .conditionAction := by
  intro ps n n' k text h
  rw [next_conditionAction, h]

theorem grows_transitionAction : Grows .transitionAction := by
  intro ps n n' k text h
  rw [next_transitionAction, h]

/-- Nested text in a pair is read, and white space behind it. -/
theorem Grows.enclosed {f : Nested → Position} (hf : Grows f) {q : Pair} {s : State}
    {ps ps' : Parts} {p : Position} {x : String} {b : List Char}
    (hopen : next s (.opening q, String.ofList [q.left]) = some ⟨ps, f blankNested⟩)
    (hx : IsNested x.toList)
    (hclose : next ⟨ps, f ⟨x, []⟩⟩ (.closing q, String.ofList [q.right]) = some ⟨ps', p⟩)
    (hp : isBetween p = true) (hb : IsBlank b) :
    Reads s (q.left :: (x.toList ++ q.right :: b)) ⟨ps', p⟩ := by
  refine .delimiter rfl hopen ((hf.reads ps hx).append ?_ ?_)
  · exact .delimiter rfl hclose (reads_blank hb ps' hp)
  · exact Delimited.apart (by intro d hd; cases hd; exact ⟨.closing q, rfl⟩) _

/-- From the state on the text can be read to its end, which gives the parts. -/
def Finishes (s : State) (t : List Char) (p : Parts) : Prop :=
  ∃ s', Reads s t s' ∧ finish s' = .ok p

theorem Reads.finishes {s u : State} {x y : List Char} {p : Parts} (h : Reads s x u)
    (h' : Finishes u y p) (hapart : Apart x y) : Finishes s (x ++ y) p := by
  obtain ⟨s', hreads, hfinish⟩ := h'
  exact ⟨s', h.append hreads hapart, hfinish⟩

section

variable {e c a ta : Option String} {p : Position} {t u v : List Char}

theorem IsSlashed.delimited (h : IsSlashed ta t) : Delimited t := by
  cases ta with
  | none =>
    obtain rfl := h
    simp [Delimited]
  | some x =>
    obtain ⟨-, rfl⟩ := h
    intro d hd
    cases hd
    exact ⟨.slash, rfl⟩

theorem IsEnclosed.delimited {q : Pair} (h : IsEnclosed q c t) (hu : Delimited u) :
    Delimited (t ++ u) := by
  cases c with
  | none =>
    obtain rfl := h
    exact hu
  | some x =>
    obtain ⟨b, -, -, rfl⟩ := h
    intro d hd
    cases hd
    exact ⟨.opening q, rfl⟩

theorem finishes_slashed (h : IsSlashed ta t) (hp : isBetween p = true) :
    Finishes ⟨⟨e, c, a, none⟩, p⟩ t ⟨e, c, a, ta⟩ := by
  cases ta with
  | none =>
    obtain rfl := h
    refine ⟨_, reads_nil _, ?_⟩
    cases p with
    | outset | afterEvent | afterCondition | afterAction => rfl
    | _ => cases hp
  | some x =>
    obtain ⟨hx, rfl⟩ := h
    have hreads := grows_transitionAction.reads ⟨e, c, a, none⟩ hx
    refine ⟨_, .delimiter (k := .slash) rfl ?_ hreads, rfl⟩
    cases p with
    | outset | afterEvent | afterCondition | afterAction => rfl
    | _ => cases hp

theorem finishes_action (ha : IsEnclosed .brace a t) (hta : IsSlashed ta u)
    (hp : p = .outset ∨ p = .afterEvent ∨ p = .afterCondition) :
    Finishes ⟨⟨e, c, none, none⟩, p⟩ (t ++ u) ⟨e, c, a, ta⟩ := by
  cases a with
  | none =>
    obtain rfl := ha
    exact finishes_slashed hta (by rcases hp with rfl | rfl | rfl <;> rfl)
  | some x =>
    obtain ⟨b, hx, hb, rfl⟩ := ha
    have hopen : next ⟨⟨e, c, none, none⟩, p⟩ (.opening .brace, String.ofList [Pair.brace.left]) =
        some ⟨⟨e, c, none, none⟩, .conditionAction blankNested⟩ := by
      rcases hp with rfl | rfl | rfl <;> rfl
    have hreads := grows_conditionAction.enclosed hopen hx rfl rfl hb
    exact hreads.finishes (finishes_slashed hta rfl) (hta.delimited.apart _)

theorem finishes_condition (hc : IsEnclosed .bracket c t) (ha : IsEnclosed .brace a u)
    (hta : IsSlashed ta v) (hp : p = .outset ∨ p = .afterEvent) :
    Finishes ⟨⟨e, none, none, none⟩, p⟩ (t ++ (u ++ v)) ⟨e, c, a, ta⟩ := by
  cases c with
  | none =>
    obtain rfl := hc
    rw [List.nil_append]
    exact finishes_action ha hta (by rcases hp with rfl | rfl <;> simp)
  | some x =>
    obtain ⟨b, hx, hb, rfl⟩ := hc
    have hopen : next ⟨⟨e, none, none, none⟩, p⟩
        (.opening .bracket, String.ofList [Pair.bracket.left]) =
        some ⟨⟨e, none, none, none⟩, .condition blankNested⟩ := by
      rcases hp with rfl | rfl <;> rfl
    have hreads := grows_condition.enclosed hopen hx rfl rfl hb
    exact hreads.finishes (finishes_action ha hta (.inr (.inr rfl)))
      ((ha.delimited hta.delimited).apart _)

end

theorem Split.finishes {t : List Char} {p : Parts} (h : Split t p) :
    Finishes ⟨⟨none, none, none, none⟩, .outset⟩ t p := by
  obtain ⟨event, condition, conditionAction, transitionAction⟩ := p
  obtain ⟨lead, e, c, ca, ta, hlead, he, hc, hca, hta, rfl⟩ := h
  have hrest : Delimited (c ++ (ca ++ ta)) := hc.delimited (hca.delimited hta.delimited)
  have hstart := reads_blank hlead ⟨none, none, none, none⟩ (p := .outset) rfl
  cases event with
  | none =>
    obtain rfl := he
    rw [List.nil_append]
    exact hstart.finishes (finishes_condition hc hca hta (.inl rfl)) (hrest.apart _)
  | some w =>
    obtain ⟨b, hw, hb, rfl⟩ := he
    have hword : ∀ d ∈ w.toList, markOf? d = some .word := fun d hd =>
      markOf?_of_runsOn (k := .word) (hw.2 d hd)
    have hafter := reads_blank hb ⟨some w, none, none, none⟩ (p := .afterEvent) rfl
    have hevent := (reads_event hw).append hafter (apart_of_ne fun d hd d' hd' => by
      rw [hword d hd]
      rcases hb.mark (List.mem_of_mem_head? hd') with hmark | hmark <;> simp [hmark])
    refine hstart.finishes (hevent.finishes (finishes_condition hc hca hta (.inr rfl))
      (hrest.apart _)) (apart_of_ne fun d hd d' hd' => ?_)
    have hd' : d' ∈ w.toList := by
      obtain ⟨first, run, hw'⟩ := List.exists_cons_of_ne_nil hw.1
      rw [hw'] at hd' ⊢
      cases hd'
      exact List.mem_cons_self ..
    rw [hword d' hd']
    rcases hlead.mark hd with hmark | hmark <;> simp [hmark]

/-! ## Exactness -/

theorem read_eq_ok {line : Nat} {text : String} {p : Parts} :
    (read line text).1 = .ok p ↔ Split text.toList p := by
  rw [read, Reader.run_eq_ok advances]
  constructor
  · rintro ⟨ts, s, hcuts, hrun, hfinish⟩
    have hlexed := lexed_of_cuts hcuts
    have hstands := Stands.run (.outset split_nil) hlexed.isToken hrun
    rw [List.nil_append, hlexed.flatMap_text] at hstands
    exact hstands.split hfinish
  · intro h
    obtain ⟨s, ⟨ts, hlexed, hrun⟩, hfinish⟩ := h.finishes
    exact ⟨ts, s, hlexed.cuts, hrun, hfinish⟩

/-- Reading a transition label gives some parts just if the label is split into them, and no label
is split in two ways. -/
theorem read_iff_split (line : Nat) (text : String) :
    (∀ p, (read line text).1 = .ok p ↔ Split text.toList p) ∧
      ∀ p q, Split text.toList p → Split text.toList q → p = q := by
  refine ⟨fun p => read_eq_ok, fun p q hp hq => ?_⟩
  have hp : (read line text).1 = .ok p := read_eq_ok.mpr hp
  have hq : (read line text).1 = .ok q := read_eq_ok.mpr hq
  exact Except.ok.inj (hp.symm.trans hq)

example : Split "go [a[0] > 1] \x7bb /= 2;\x7d / c".toList
    ⟨some "go", some "a[0] > 1", some "b /= 2;", some " c"⟩ :=
  (@read_eq_ok 1 _ _).mp rfl

end Statechart.Label.Parts
