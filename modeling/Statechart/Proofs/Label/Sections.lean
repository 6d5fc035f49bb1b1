import Mathlib.Data.List.Forall2
import Statechart.Proofs.Token.Cuts

/-!
Sections of a state label. Reading a label body succeeds just if its tokens are white space and then
sections, each a heading, a colon and a body without keywords; and it gives these sections with
their bodies character by character (`read_iff_isLabel`). One direction follows what has been read
at each position (`Stands`), the other reads the sections one after the other.
-/

namespace Statechart.Label.Section

/-- A token of a label body without its place. -/
abbrev Piece := Mark × String

/-! ## Labels as lists of tokens -/

def isGap : Mark → Bool
  | .space | .newline => true
  | _ => false

/-- White space, perhaps none. -/
def Gap (ts : List Piece) : Prop := ∀ t ∈ ts, isGap t.1 = true

def isSeparator : Mark → Bool
  | .comma | .semicolon => true
  | _ => false

/-- A temporal operator stands directly in front of its parenthesis. -/
def isTemporal : Mark → Bool
  | .keyword (.temporal _) => true
  | _ => false

/-- The second list is the first with white space behind its tokens, where it may stand. -/
inductive Spaced : List Piece → List Piece → Prop
  | nil : Spaced [] []
  | cons {t : Piece} {gap core ts : List Piece} : Gap gap → (isTemporal t.1 = true → gap = []) →
      Spaced core ts → Spaced (t :: core) (t :: (gap ++ ts))

/-- Action words with separators between them. -/
inductive Words : List ActionWord → List Piece → Prop
  | one (w : ActionWord) (text : String) : Words [w] [(.keyword (.action w), text)]
  | more {ws : List ActionWord} {ts : List Piece} {sep : Piece} (w : ActionWord) (text : String) :
      Words ws ts → isSeparator sep.1 = true →
      Words (ws ++ [w]) (ts ++ [sep, (.keyword (.action w), text)])

/-- The tokens of a heading up to its colon, white space apart. -/
inductive IsHeading : Heading → List Piece → Prop
  | actions {ws : List ActionWord} {ts : List Piece} : Words ws ts → IsHeading (.actions ws) ts
  | bind (text : String) : IsHeading .bind [(.keyword .bind, text)]
  | named (text event : String) :
      IsHeading (.on (.named event)) [(.keyword .on, text), (.word, event)]
  | temporal (w : Temporal) (text word left count comma event right : String) :
      IsHeading (.on (.temporal w count event))
        [(.keyword .on, text), (.keyword (.temporal w), word), (.leftParen, left), (.word, count),
          (.comma, comma), (.word, event), (.rightParen, right)]

/-- The text of a body: at least one token, and none of them a keyword. -/
structure IsBody (ts : List Piece) : Prop where
  ne_nil : ts ≠ []
  plain : ∀ t ∈ ts, ∀ k, t.1 ≠ .keyword k

/-- A heading, closed by a colon, and a body, whose text is kept as it is. -/
def IsSection (s : Section) (ts : List Piece) : Prop :=
  ∃ core heading colon body, IsHeading s.heading core ∧ Spaced core heading ∧ IsBody body ∧
    ts = heading ++ (.colon, colon) :: body ∧ s.body = String.join (body.map (·.2))

/-- White space and then sections, in the order of the text. -/
def IsLabel (ss : List Section) (ts : List Piece) : Prop :=
  ∃ lead chunks, Gap lead ∧ List.Forall₂ IsSection ss chunks ∧ ts = lead ++ chunks.flatten

theorem Gap.concat {ts : List Piece} {t : Piece} (h : Gap ts) (ht : isGap t.1 = true) :
    Gap (ts ++ [t]) :=
  List.forall_mem_append.mpr ⟨h, by simpa using ht⟩

/-- One more token. -/
theorem Spaced.concat {core ts : List Piece} (h : Spaced core ts) (t : Piece) :
    Spaced (core ++ [t]) (ts ++ [t]) := by
  induction h with
  | nil => exact @Spaced.cons t [] [] [] (by simp [Gap]) (fun _ => rfl) .nil
  | cons hgap htemporal _ ih =>
    rw [List.cons_append, List.cons_append, List.append_assoc]
    exact .cons hgap htemporal ih

/-- More white space behind the last token. -/
theorem Spaced.gap {core ts : List Piece} (h : Spaced core ts) {last : Piece}
    (hlast : last ∈ core.getLast?) (hroom : isTemporal last.1 = false) {t : Piece}
    (ht : isGap t.1 = true) : Spaced core (ts ++ [t]) := by
  induction h with
  | nil => cases hlast
  | @cons u gap core ts hgap htemporal hrest ih =>
    rw [List.cons_append, List.append_assoc]
    cases hrest with
    | nil =>
      obtain rfl : u = last := by simpa using hlast
      have h : Spaced [u] (u :: (gap ++ [t] ++ [])) := by
        refine .cons (hgap.concat ht) ?_ .nil
        simp [hroom]
      simpa using h
    | cons hgap' htemporal' hrest' => exact .cons hgap htemporal (ih hlast)

/-- A section's body goes on up to the next keyword. -/
theorem IsSection.grow {h : Heading} {b : String} {ts : List Piece} (hs : IsSection ⟨h, b⟩ ts)
    {k : Mark} (hk : ∀ j, k ≠ .keyword j) (text : String) :
    IsSection ⟨h, b ++ text⟩ (ts ++ [(k, text)]) := by
  obtain ⟨core, heading, colon, body, hheading, hspaced, hbody, rfl, rfl⟩ := hs
  refine ⟨core, heading, colon, body ++ [(k, text)], hheading, hspaced, ⟨by simp, ?_⟩, by simp, ?_⟩
  · exact List.forall_mem_append.mpr ⟨hbody.plain, by simpa using hk⟩
  · simp [String.join]

theorem IsLabel.concat {ss : List Section} {s : Section} {ts chunk : List Piece}
    (h : IsLabel ss ts) (hs : IsSection s chunk) : IsLabel (ss ++ [s]) (ts ++ chunk) := by
  obtain ⟨lead, chunks, hlead, hall, rfl⟩ := h
  refine ⟨lead, chunks ++ [chunk], hlead, List.rel_append hall (.cons hs .nil), ?_⟩
  simp

/-! ## Steps -/

def next (s : State) (t : Piece) : Option State := s.next t.1 t.2

theorem advances : reader.Advances next := by
  intro s t s'
  show step s t = .ok s' ↔ s.next t.kind t.text = some s'
  unfold step
  cases s.next t.kind t.text with
  | none => simp
  | some u => simp

/-- Positions that pass over white space. -/
def isRoomy : Position → Bool
  | .temporal _ | .start _ | .body _ _ => false
  | _ => true

theorem next_gap {k : Mark} (hk : isGap k = true) {p : Position} (hp : isRoomy p = true)
    (text : String) : p.next k text = some p := by
  cases k with
  | space | newline =>
    cases p with
    | temporal w => cases hp
    | start h => cases hp
    | body h b => cases hp
    | _ => rfl
  | _ => cases hk

/-! ## What has been read -/

/-- The tokens of a heading that has come to this position, white space apart. -/
def Opened : Position → List Piece → Prop
  | .afterWord ws, core => Words ws core
  | .nextWord ws, core => ∃ front sep, Words ws front ∧ isSeparator sep.1 = true ∧
      core = front ++ [sep]
  | .close h, core => IsHeading h core
  | .event, core => ∃ text, core = [(.keyword .on, text)]
  | .temporal w, core => ∃ text word, core = [(.keyword .on, text), (.keyword (.temporal w), word)]
  | .temporalCount w, core => ∃ text word left,
      core = [(.keyword .on, text), (.keyword (.temporal w), word), (.leftParen, left)]
  | .temporalComma w n, core => ∃ text word left,
      core = [(.keyword .on, text), (.keyword (.temporal w), word), (.leftParen, left), (.word, n)]
  | .temporalEvent w n, core => ∃ text word left comma,
      core = [(.keyword .on, text), (.keyword (.temporal w), word), (.leftParen, left), (.word, n),
        (.comma, comma)]
  | .temporalClose w n e, core => ∃ text word left comma,
      core = [(.keyword .on, text), (.keyword (.temporal w), word), (.leftParen, left), (.word, n),
        (.comma, comma), (.word, e)]
  | .outset, _ | .start _, _ | .body _ _, _ => False

theorem opened_ofKeyword {k : Keyword} {p : Position} (h : Position.ofKeyword? k = some p)
    (text : String) : Opened p [(.keyword k, text)] := by
  cases k with
  | action w =>
    cases h
    exact .one w text
  | bind =>
    cases h
    exact .bind text
  | on =>
    cases h
    exact ⟨text, rfl⟩
  | temporal w => cases h

theorem Words.last {ws : List ActionWord} {ts : List Piece} (h : Words ws ts) :
    ∃ last ∈ ts.getLast?, isTemporal last.1 = false := by
  cases h with
  | one w text => exact ⟨_, rfl, rfl⟩
  | more w text _ _ => exact ⟨(.keyword (.action w), text), by simp, rfl⟩

/-- White space may stand behind the tokens that lead to a position, unless the last one is a
temporal operator. -/
theorem Opened.last {p : Position} {core : List Piece} (h : Opened p core)
    (hp : isRoomy p = true) : ∃ last ∈ core.getLast?, isTemporal last.1 = false := by
  cases p with
  | outset => cases h
  | start heading => cases h
  | body heading b => cases h
  | temporal w => cases hp
  | afterWord ws => exact Words.last h
  | nextWord ws =>
    obtain ⟨front, ⟨sep, text⟩, -, hsep, rfl⟩ := h
    refine ⟨(sep, text), by simp, ?_⟩
    cases sep <;> first | rfl | cases hsep
  | close heading =>
    cases h with
    | actions hwords => exact hwords.last
    | bind text => exact ⟨_, rfl, rfl⟩
    | named text event => exact ⟨_, rfl, rfl⟩
    | temporal => exact ⟨_, rfl, rfl⟩
  | event =>
    obtain ⟨text, rfl⟩ := h
    exact ⟨_, rfl, rfl⟩
  | temporalCount w =>
    obtain ⟨text, word, left, rfl⟩ := h
    exact ⟨_, rfl, rfl⟩
  | temporalComma w n =>
    obtain ⟨text, word, left, rfl⟩ := h
    exact ⟨_, rfl, rfl⟩
  | temporalEvent w n =>
    obtain ⟨text, word, left, comma, rfl⟩ := h
    exact ⟨_, rfl, rfl⟩
  | temporalClose w n e =>
    obtain ⟨text, word, left, comma, rfl⟩ := h
    exact ⟨_, rfl, rfl⟩

theorem Opened.gap {p p' : Position} {core : List Piece} {k : Mark} {text : String}
    (h : Opened p core) (hk : isGap k = true) (hnext : p.next k text = some p') :
    isRoomy p = true ∧ p' = p := by
  cases hp : isRoomy p with
  | true =>
    rw [next_gap hk hp] at hnext
    cases hnext
    exact ⟨rfl, rfl⟩
  | false =>
    cases p with
    | temporal w =>
      cases k with
      | leftParen => cases hk
      | _ => cases hnext
    | start heading => cases h
    | body heading b => cases h
    | _ => cases hp

/-- White space apart, a token in a heading is a colon that closes it or one more of the heading. -/
theorem Opened.next {p p' : Position} {core : List Piece} {k : Mark} {text : String}
    (h : Opened p core) (hk : isGap k = false) (hnext : p.next k text = some p') :
    (k = .colon ∧ ∃ heading, p' = .start heading ∧ IsHeading heading core) ∨
      Opened p' (core ++ [(k, text)]) := by
  cases p with
  | outset => cases h
  | start heading => cases h
  | body heading b => cases h
  | afterWord ws =>
    cases k with
    | space | newline => cases hk
    | colon =>
      cases hnext
      exact .inl ⟨rfl, _, rfl, .actions h⟩
    | comma | semicolon =>
      cases hnext
      exact .inr ⟨core, _, h, rfl, rfl⟩
    | _ => cases hnext
  | nextWord ws =>
    obtain ⟨front, sep, hwords, hsep, rfl⟩ := h
    cases k with
    | space | newline => cases hk
    | keyword k =>
      cases k with
      | action w =>
        cases hnext
        refine .inr ?_
        rw [List.append_assoc]
        exact .more w text hwords hsep
      | _ => cases hnext
    | _ => cases hnext
  | close heading =>
    cases k with
    | space | newline => cases hk
    | colon =>
      cases hnext
      exact .inl ⟨rfl, _, rfl, h⟩
    | _ => cases hnext
  | event =>
    obtain ⟨on, rfl⟩ := h
    cases k with
    | space | newline => cases hk
    | word =>
      cases hnext
      exact .inr (.named on text)
    | keyword k =>
      cases k with
      | temporal w =>
        cases hnext
        exact .inr ⟨on, text, rfl⟩
      | _ => cases hnext
    | _ => cases hnext
  | temporal w =>
    obtain ⟨on, word, rfl⟩ := h
    cases k with
    | leftParen =>
      cases hnext
      exact .inr ⟨on, word, text, rfl⟩
    | _ => cases hnext
  | temporalCount w =>
    obtain ⟨on, word, left, rfl⟩ := h
    cases k with
    | space | newline => cases hk
    | word =>
      cases hnext
      exact .inr ⟨on, word, left, rfl⟩
    | _ => cases hnext
  | temporalComma w n =>
    obtain ⟨on, word, left, rfl⟩ := h
    cases k with
    | space | newline => cases hk
    | comma =>
      cases hnext
      exact .inr ⟨on, word, left, text, rfl⟩
    | _ => cases hnext
  | temporalEvent w n =>
    obtain ⟨on, word, left, comma, rfl⟩ := h
    cases k with
    | space | newline => cases hk
    | word =>
      cases hnext
      exact .inr ⟨on, word, left, comma, rfl⟩
    | _ => cases hnext
  | temporalClose w n e =>
    obtain ⟨on, word, left, comma, rfl⟩ := h
    cases k with
    | space | newline => cases hk
    | rightParen =>
      cases hnext
      exact .inr (.temporal w on word left n comma e text)
    | _ => cases hnext

/-- What has been read when a reading has come to a state. -/
inductive Stands : State → List Piece → Prop
  | outset {ts : List Piece} : Gap ts → Stands ⟨[], .outset⟩ ts
  | heading {ss : List Section} {p : Position} {done core heading : List Piece} :
      IsLabel ss done → Opened p core → Spaced core heading → Stands ⟨ss, p⟩ (done ++ heading)
  | start {ss : List Section} {h : Heading} {done core heading : List Piece} (colon : String) :
      IsLabel ss done → IsHeading h core → Spaced core heading →
      Stands ⟨ss, .start h⟩ (done ++ (heading ++ [(.colon, colon)]))
  | body {ss : List Section} {h : Heading} {text : String} {done chunk : List Piece} :
      IsLabel ss done → IsSection ⟨h, text⟩ chunk → Stands ⟨ss, .body h text⟩ (done ++ chunk)

/-- A keyword starts a heading. -/
theorem stands_keyword {ss : List Section} {k : Keyword} {text : String} {done : List Piece}
    {s : State} (hdone : IsLabel ss done)
    (h : (Position.ofKeyword? k).map (State.mk ss) = some s) :
    Stands s (done ++ [(.keyword k, text)]) := by
  obtain ⟨p, hp, rfl⟩ := Option.map_eq_some_iff.mp h
  exact .heading hdone (opened_ofKeyword hp text) (Spaced.nil.concat _)

theorem next_start {k : Mark} (hk : ∀ j, k ≠ .keyword j) (ss : List Section) (h : Heading)
    (text : String) : next ⟨ss, .start h⟩ (k, text) = some ⟨ss, .body h text⟩ := by
  cases k with
  | keyword j => exact absurd rfl (hk j)
  | _ => rfl

theorem next_body {k : Mark} (hk : ∀ j, k ≠ .keyword j) (ss : List Section) (h : Heading)
    (b text : String) : next ⟨ss, .body h b⟩ (k, text) = some ⟨ss, .body h (b ++ text)⟩ := by
  cases k with
  | keyword j => exact absurd rfl (hk j)
  | _ => rfl

theorem Stands.next {s s' : State} {ts : List Piece} {t : Piece} (h : Stands s ts)
    (hnext : next s t = some s') : Stands s' (ts ++ [t]) := by
  obtain ⟨k, text⟩ := t
  cases h with
  | outset hgap =>
    cases k with
    | space | newline =>
      cases hnext
      exact .outset (hgap.concat rfl)
    | keyword k => exact stands_keyword ⟨ts, [], hgap, .nil, by simp⟩ hnext
    | _ => cases hnext
  | @heading ss p done core heading hdone hopen hspaced =>
    have hmap : (p.next k text).map (State.mk ss) = some s' := by
      cases p with
      | body h text => cases hopen
      | _ => exact hnext
    obtain ⟨p', hp', rfl⟩ := Option.map_eq_some_iff.mp hmap
    rw [List.append_assoc]
    cases hk : isGap k with
    | true =>
      obtain ⟨hroom, rfl⟩ := hopen.gap hk hp'
      obtain ⟨last, hlast, htemporal⟩ := hopen.last hroom
      exact .heading hdone hopen (hspaced.gap hlast htemporal hk)
    | false =>
      rcases hopen.next hk hp' with ⟨rfl, h, rfl, hheading⟩ | hopen'
      · exact .start text hdone hheading hspaced
      · exact .heading hdone hopen' (hspaced.concat _)
  | @start ss h done core heading colon hdone hheading hspaced =>
    have hplain : ∀ j, k ≠ .keyword j := by
      rintro j rfl
      cases hnext
    rw [next_start hplain, Option.some.injEq] at hnext
    subst hnext
    rw [List.append_assoc]
    refine .body hdone ⟨core, heading, colon, [(k, text)], hheading, hspaced, ⟨by simp, ?_⟩, ?_, ?_⟩
    · simpa using hplain
    · simp
    · simp [String.join]
  | @body ss h b done chunk hdone hsection =>
    by_cases hk : ∃ j, k = .keyword j
    · obtain ⟨j, rfl⟩ := hk
      exact stands_keyword (hdone.concat hsection) hnext
    · have hplain : ∀ j, k ≠ .keyword j := fun j hj => hk ⟨j, hj⟩
      rw [next_body hplain, Option.some.injEq] at hnext
      subst hnext
      rw [List.append_assoc]
      exact .body hdone (hsection.grow hplain text)

theorem Stands.run {us : List Piece} {s s' : State} {ts : List Piece} (h : Stands s ts)
    (hrun : us.foldlM Section.next s = some s') : Stands s' (ts ++ us) := by
  induction us generalizing s ts with
  | nil =>
    cases hrun
    simpa using h
  | cons t us ih =>
    obtain ⟨u, hu, hrun⟩ := Option.bind_eq_some_iff.mp hrun
    have h := ih (h.next hu) hrun
    rwa [List.append_assoc] at h

theorem Stands.isLabel {s : State} {ts : List Piece} {ss : List Section} (h : Stands s ts)
    (hfinish : finish s = .ok ss) : IsLabel ss ts := by
  cases h with
  | outset hgap =>
    cases hfinish
    exact ⟨ts, [], hgap, .nil, by simp⟩
  | @heading ss' p done core heading hdone hopen hspaced =>
    cases p with
    | outset => cases hopen
    | body h text => cases hopen
    | _ => cases hfinish
  | start colon hdone hheading hspaced => cases hfinish
  | body hdone hsection =>
    cases hfinish
    exact hdone.concat hsection

/-! ## Reading sections -/

theorem foldlM_gap {gap : List Piece} (hgap : Gap gap) (ss : List Section) {p : Position}
    (hp : isRoomy p = true) : gap.foldlM next ⟨ss, p⟩ = some ⟨ss, p⟩ := by
  induction gap with
  | nil => rfl
  | cons t gap ih =>
    rw [Gap, List.forall_mem_cons] at hgap
    have hstep : next ⟨ss, p⟩ t = some ⟨ss, p⟩ := by
      have hmap : next ⟨ss, p⟩ t = (p.next t.1 t.2).map (State.mk ss) := by
        cases p with
        | body h b => cases hp
        | _ => rfl
      rw [hmap, next_gap hgap.1 hp]
      rfl
    rw [List.foldlM_cons, hstep]
    exact ih hgap.2

/-- Tokens are read one after the other, with room for white space where it may stand. -/
inductive Run : State → List Piece → State → Prop
  | nil (s : State) : Run s [] s
  | cons {s u v : State} {t : Piece} {ts : List Piece} : next s t = some u →
      (isTemporal t.1 = false → isRoomy u.position = true) → Run u ts v → Run s (t :: ts) v

theorem Run.append {s u v : State} {ts us : List Piece} (h : Run s ts u) (h' : Run u us v) :
    Run s (ts ++ us) v := by
  induction h with
  | nil => exact h'
  | cons hnext hroom _ ih => exact .cons hnext hroom (ih h')

theorem Run.spaced {s v : State} {core ts : List Piece} (h : Run s core v) (hts : Spaced core ts) :
    ts.foldlM next s = some v := by
  induction hts generalizing s with
  | nil =>
    cases h
    rfl
  | @cons t gap core ts hgap htemporal hrest ih =>
    cases h with
    | @cons _ u _ _ _ hnext hroom hrun =>
      rw [List.foldlM_cons, hnext]
      show (gap ++ ts).foldlM next u = some v
      -- behind a temporal operator there is no gap, and everywhere else there is room for one
      have hstay : gap.foldlM next u = some u := by
        cases ht : isTemporal t.1 with
        | true =>
          rw [htemporal ht]
          rfl
        | false => exact foldlM_gap hgap u.sections (hroom ht)
      rw [List.foldlM_append, hstay]
      exact ih hrun

/-- A heading may start in the state, behind these sections. -/
inductive Starts : State → List Section → Prop
  | outset (ss : List Section) : Starts ⟨ss, .outset⟩ ss
  | body (ss : List Section) (h : Heading) (text : String) :
      Starts ⟨ss, .body h text⟩ (ss ++ [⟨h, text⟩])

theorem Starts.keyword {s : State} {ss : List Section} (h : Starts s ss) (k : Keyword)
    (text : String) : next s (.keyword k, text) = (Position.ofKeyword? k).map (State.mk ss) := by
  cases h with
  | outset => rfl
  | body => rfl

theorem Starts.finish {s : State} {ss : List Section} (h : Starts s ss) : finish s = .ok ss := by
  cases h with
  | outset => rfl
  | body => rfl

theorem run_words {ws : List ActionWord} {ts : List Piece} (h : Words ws ts) {s : State}
    {ss : List Section} (hs : Starts s ss) : Run s ts ⟨ss, .afterWord ws⟩ := by
  induction h with
  | one w text => exact .cons (hs.keyword (.action w) text) (fun _ => rfl) (.nil _)
  | @more ws ts sep w text _ hsep ih =>
    obtain ⟨k, septext⟩ := sep
    refine ih.append (.cons (u := ⟨ss, .nextWord ws⟩) ?_ (fun _ => rfl)
      (.cons rfl (fun _ => rfl) (.nil _)))
    cases k with
    | comma | semicolon => rfl
    | _ => cases hsep

/-- A heading with its colon is read. -/
theorem foldlM_heading {h : Heading} {core ts : List Piece} (hheading : IsHeading h core)
    (hspaced : Spaced core ts) {s : State} {ss : List Section} (hs : Starts s ss) (colon : String) :
    List.foldlM next s (ts ++ [(.colon, colon)]) = some ⟨ss, .start h⟩ := by
  have hrun : ∃ p, Run s core ⟨ss, p⟩ ∧ next ⟨ss, p⟩ (.colon, colon) = some ⟨ss, .start h⟩ := by
    cases hheading with
    | actions hwords => exact ⟨_, run_words hwords hs, rfl⟩
    | bind text => exact ⟨.close .bind, .cons (hs.keyword .bind text) (fun _ => rfl) (.nil _), rfl⟩
    | named text event =>
      refine ⟨.close (.on (.named event)), .cons (hs.keyword .on text) (fun _ => rfl) ?_, rfl⟩
      exact .cons rfl (fun _ => rfl) (.nil _)
    | temporal w text word left count comma event right =>
      refine ⟨.close (.on (.temporal w count event)),
        .cons (hs.keyword .on text) (fun _ => rfl) ?_, rfl⟩
      refine .cons rfl nofun (.cons rfl (fun _ => rfl) (.cons rfl (fun _ => rfl) ?_))
      exact .cons rfl (fun _ => rfl) (.cons rfl (fun _ => rfl) (.cons rfl (fun _ => rfl) (.nil _)))
  obtain ⟨p, hrun, hcolon⟩ := hrun
  rw [List.foldlM_append, hrun.spaced hspaced]
  simpa using hcolon

theorem foldlM_plain {ts : List Piece} (h : ∀ t ∈ ts, ∀ k, t.1 ≠ .keyword k) (ss : List Section)
    (heading : Heading) (text : String) :
    ts.foldlM next ⟨ss, .body heading text⟩ =
      some ⟨ss, .body heading (text ++ String.join (ts.map (·.2)))⟩ := by
  induction ts generalizing text with
  | nil => simp
  | cons t ts ih =>
    obtain ⟨k, more⟩ := t
    rw [List.foldlM_cons, next_body (h _ (List.mem_cons_self ..)), List.map_cons,
      String.join_cons, ← String.append_assoc]
    exact ih (fun t ht => h t (List.mem_cons_of_mem _ ht)) _

theorem foldlM_body {ts : List Piece} (h : IsBody ts) (ss : List Section) (heading : Heading) :
    ts.foldlM next ⟨ss, .start heading⟩ =
      some ⟨ss, .body heading (String.join (ts.map (·.2)))⟩ := by
  obtain ⟨hne, hplain⟩ := h
  cases ts with
  | nil => exact absurd rfl hne
  | cons t ts =>
    obtain ⟨k, text⟩ := t
    rw [List.foldlM_cons, next_start (hplain _ (List.mem_cons_self ..)), List.map_cons,
      String.join_cons]
    exact foldlM_plain (fun t ht => hplain t (List.mem_cons_of_mem _ ht)) ss heading text

theorem foldlM_section {sec : Section} {chunk : List Piece} (h : IsSection sec chunk) {s : State}
    {ss : List Section} (hs : Starts s ss) :
    chunk.foldlM next s = some ⟨ss, .body sec.heading sec.body⟩ := by
  obtain ⟨core, heading, colon, body, hheading, hspaced, hbody, rfl, htext⟩ := h
  rw [List.append_cons, List.foldlM_append, foldlM_heading hheading hspaced hs colon, htext]
  exact foldlM_body hbody ss sec.heading

theorem foldlM_sections {secs : List Section} {chunks : List (List Piece)}
    (h : List.Forall₂ IsSection secs chunks) {s : State} {ss : List Section} (hs : Starts s ss) :
    ∃ s', chunks.flatten.foldlM next s = some s' ∧ Starts s' (ss ++ secs) := by
  induction h generalizing s ss with
  | nil => exact ⟨s, rfl, by simpa using hs⟩
  | @cons sec chunk secs chunks hsec _ ih =>
    obtain ⟨s', hrun, hs'⟩ := ih (.body ss sec.heading sec.body)
    refine ⟨s', ?_, by simpa using hs'⟩
    rw [List.flatten_cons, List.foldlM_append, foldlM_section hsec hs]
    exact hrun

/-! ## Exactness -/

theorem lossless : lexer.Lossless := by
  refine ⟨fun c => rfl, fun r hr s => ?_⟩
  simp only [lexer, List.mem_cons, List.not_mem_nil, or_false] at hr
  rcases hr with rfl | rfl | rfl | rfl <;> simp

theorem read_eq_ok {line : Nat} {text : String} {ss : List Section} :
    (read line text).1 = .ok ss ↔ ∃ ts, lexer.Cuts text.toList ts none ∧ IsLabel ss ts := by
  rw [read, Reader.run_eq_ok advances]
  constructor
  · rintro ⟨ts, s, hcuts, hrun, hfinish⟩
    have hstands : Stands s ([] ++ ts) := Stands.run (.outset (by simp [Gap])) hrun
    exact ⟨ts, hcuts, hstands.isLabel hfinish⟩
  · rintro ⟨ts, hcuts, lead, chunks, hlead, hall, rfl⟩
    obtain ⟨s, hrun, hs⟩ := foldlM_sections hall (.outset [])
    refine ⟨_, s, hcuts, ?_, hs.finish⟩
    rw [List.foldlM_append, show reader.start = ⟨[], .outset⟩ from rfl, foldlM_gap hlead [] rfl]
    exact hrun

/-- Whatever tokens a label body is cut into: nothing of it is left out of them, and reading gives
sections just if the tokens are white space and then these sections, one after the other. -/
theorem read_iff_isLabel {line last : Nat} {text : String} {ts : List (Token Mark)}
    (hscan : lexer.scan line text.toList = ⟨ts, .complete last⟩) :
    String.join (ts.map (·.text)) = text ∧
      ∀ ss, (read line text).1 = .ok ss ↔ IsLabel ss (ts.map Token.bare) := by
  have hcuts := lexer.cuts_scan line text.toList
  rw [hscan] at hcuts
  refine ⟨?_, fun ss => ?_⟩
  · have hjoin := hcuts.flatMap_text lossless
    rw [Tail.rest?, Option.getD_none, List.append_nil, List.flatMap_map] at hjoin
    rw [← String.toList_inj, String.toList_join, List.flatMap_map]
    exact hjoin
  · rw [read_eq_ok]
    constructor
    · rintro ⟨ts', hcuts', hlabel⟩
      rwa [(hcuts.unique hcuts').1]
    · exact fun hlabel => ⟨_, hcuts, hlabel⟩

theorem read_iff_isLabel_two_sections :
    IsLabel [⟨.actions [.en, .ex], "x; "⟩, ⟨.on (.temporal .after "5" "t"), " y"⟩]
      ((lexer.scan 1 "en, ex :x; on after(5, t): y".toList).tokens.map Token.bare) :=
  ((@read_iff_isLabel 1 1 "en, ex :x; on after(5, t): y" _ rfl).2 _).mp rfl

end Statechart.Label.Section
