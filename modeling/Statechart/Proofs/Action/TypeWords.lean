import Mathlib.Data.List.Basic
import Statechart.Proofs.Action.Sequencing
import Statechart.Proofs.Label.Marks

/-!
The order of type words. Type words are judged from the last one to the first, and `const` may
stand anywhere: the last word of the others says what is declared, and those in front of it have to
suit it. The words of a declaration may change places, and both declarations are refused, or both
are read and declare the same (`type_words_reordered`), unless a word for integers is moved away
from behind its modifiers: then the declaration is refused (`unsigned_behind_int_refused`).
-/

namespace Statechart.Action

/-! ## Judging type words -/

/-- The type words other than `const`. -/
def withoutConst (ws : List TypeWord) : List TypeWord := ws.filter (· ≠ .const)

/-- The last type word other than `const`. -/
def base? (ws : List TypeWord) : Option TypeWord := (withoutConst ws).getLast?

/-- The last word other than `const` is for integers, and nothing but modifiers is in front of
it. -/
def isHeaded (ws : List TypeWord) : Bool :=
  (base? ws).any (fun w => Kind.ofWord w == .int && !isModifier w) &&
    (withoutConst ws).dropLast.all isModifier

theorem foldlM_add_filter (k : Kind) (us : List TypeWord) :
    us.foldlM Kind.add k = (us.filter (· ≠ .const)).foldlM Kind.add k := by
  induction us generalizing k with
  | nil => rfl
  | cons w us ih =>
    by_cases hw : w = .const
    · subst hw
      exact ih k
    · rw [List.filter_cons_of_pos (by simpa using hw), List.foldlM_cons, List.foldlM_cons]
      cases k.add w with
      | error f => rfl
      | ok k' => exact ih k'

theorem foldlM_add_int {more : List TypeWord} (hmore : ∀ w ∈ more, w ≠ .const) :
    (more.foldlM Kind.add .int).toOption = if more.all isModifier then some .int else none := by
  induction more with
  | nil => rfl
  | cons w more ih =>
    obtain ⟨hw, hmore⟩ := List.forall_mem_cons.mp hmore
    have hadd : Kind.add .int w = if isModifier w then .ok .int else .error .typeWords := by
      cases w <;> first | rfl | exact absurd rfl hw
    rw [List.foldlM_cons, hadd, List.all_cons]
    cases isModifier w with
    | true => exact ih hmore
    | false => rfl

theorem foldlM_add_bool {more : List TypeWord} (hmore : ∀ w ∈ more, w ≠ .const) :
    (more.foldlM Kind.add .bool).toOption = if more.isEmpty then some .bool else none := by
  cases more with
  | nil => rfl
  | cons w more =>
    have hadd : Kind.add .bool w = .error .typeWords := by
      cases w <;> first | rfl | exact absurd rfl (hmore _ (List.mem_cons_self ..))
    rw [List.foldlM_cons, hadd]
    rfl

/-- What type words say, if the last one is for truth values or for integers: it is the only one
and for truth values, or it is for integers or a modifier, and those in front of it modify it. -/
theorem foldlM_add_reverse {ws : List TypeWord} (hne : withoutConst ws ≠ [])
    (hbase : ∀ w ∈ base? ws, Kind.ofWord w ≠ .small) :
    (ws.reverse.foldlM Kind.add .unset).toOption =
      if withoutConst ws = [.bool] then some .bool
      else if isHeaded ws || (withoutConst ws).all isModifier then some .int else none := by
  obtain ⟨front, w, hwords⟩ := (List.eq_nil_or_concat' (withoutConst ws)).resolve_left hne
  have hlast : base? ws = some w := by rw [base?, hwords, List.getLast?_concat]
  have hconst : ∀ v ∈ withoutConst ws, v ≠ .const := by
    intro v hv
    simpa using (List.mem_filter.mp hv).2
  rw [hwords] at hconst
  have hfront : ∀ v ∈ front.reverse, v ≠ .const := fun v hv =>
    hconst v (List.mem_append_left _ (List.mem_reverse.mp hv))
  have hadd : Kind.add .unset w = .ok (.ofWord w) := by
    have hw := hconst w (by simp)
    cases w <;> first | rfl | exact absurd rfl hw
  have hfold : ws.reverse.foldlM Kind.add .unset =
      front.reverse.foldlM Kind.add (.ofWord w) := by
    rw [foldlM_add_filter, List.filter_reverse, ← withoutConst, hwords, List.reverse_concat,
      List.foldlM_cons, hadd]
    rfl
  have hheaded : isHeaded ws =
      (Kind.ofWord w == .int && !isModifier w && front.all isModifier) := by
    rw [isHeaded, hlast, hwords, List.dropLast_concat, Option.any_some]
  have hsmall := hbase w hlast
  rw [hfold, hheaded, hwords]
  cases hkind : Kind.ofWord w with
  | int =>
    have hbool : front ++ [w] ≠ [.bool] := by
      intro h
      have hw : w ∈ [TypeWord.bool] := h ▸ List.mem_append_right _ (List.mem_singleton_self w)
      rw [List.mem_singleton.mp hw] at hkind
      cases hkind
    rw [foldlM_add_int hfront, if_neg hbool, List.all_reverse]
    cases hmodifier : isModifier w <;> simp [hmodifier]
  | bool =>
    obtain rfl : w = .bool := by cases w <;> first | rfl | cases hkind
    rw [foldlM_add_bool hfront, List.isEmpty_reverse]
    cases front with
    | nil => rfl
    | cons v front => simp [isModifier]
  | small => exact absurd hkind hsmall
  | unset => cases w <;> cases hkind

theorem resolve_congr {us us' : List TypeWord}
    (hfold : (us.foldlM Kind.add .unset).toOption = (us'.foldlM Kind.add .unset).toOption)
    (hconst : us.contains .const = us'.contains .const) :
    (resolve us).toOption = (resolve us').toOption := by
  unfold resolve
  rw [hconst]
  cases hus : us.foldlM Kind.add .unset <;> cases hus' : us'.foldlM Kind.add .unset <;>
    rw [hus, hus'] at hfold <;> cases hfold
  · rfl
  · rfl

/-- Two lists of type words that say the same wherever they stand: in both or in neither the last
word is for integers behind modifiers, and it is not for small numbers, of which nothing is
asked; or there is one word other than `const` at most. -/
def Exchangeable (ws ws' : List TypeWord) : Prop :=
  isHeaded ws = isHeaded ws' ∧ (∀ w ∈ base? ws, Kind.ofWord w ≠ .small) ∧
      (∀ w ∈ base? ws', Kind.ofWord w ≠ .small) ∨
    (withoutConst ws).length ≤ 1

/-- What exchangeable type words say does not depend on their order. -/
theorem resolve_reverse_of_perm {ws ws' : List TypeWord} (hperm : ws.Perm ws')
    (hex : Exchangeable ws ws') :
    (resolve ws.reverse).toOption = (resolve ws'.reverse).toOption := by
  have hwords : (withoutConst ws).Perm (withoutConst ws') := hperm.filter _
  refine resolve_congr ?_ (by rw [Bool.eq_iff_iff]; simp [hperm.mem_iff])
  by_cases hsingle : (withoutConst ws).length ≤ 1
  · -- at most one word has one order only
    have hsame : withoutConst ws = withoutConst ws' := by
      cases hus : withoutConst ws with
      | nil => exact (hus ▸ hwords).nil_eq
      | cons w us =>
        rw [hus, List.length_cons] at hsingle
        obtain rfl : us = [] := List.eq_nil_of_length_eq_zero (by omega)
        exact (hus ▸ hwords).singleton_eq
    rw [foldlM_add_filter, foldlM_add_filter .unset ws'.reverse, List.filter_reverse,
      List.filter_reverse]
    exact congrArg (fun us => (us.reverse.foldlM Kind.add .unset).toOption) hsame
  · obtain ⟨hheaded, hbase, hbase'⟩ := hex.resolve_right hsingle
    have hne : withoutConst ws ≠ [] := by
      intro h
      simp [h] at hsingle
    have hne' : withoutConst ws' ≠ [] := fun h => hne (h ▸ hwords).eq_nil
    have hbool : withoutConst ws = [.bool] ↔ withoutConst ws' = [.bool] :=
      ⟨fun h => (h ▸ hwords).singleton_eq.symm, fun h => (h ▸ hwords).eq_singleton⟩
    have hall : (withoutConst ws).all isModifier = (withoutConst ws').all isModifier := by
      rw [Bool.eq_iff_iff, List.all_eq_true, List.all_eq_true]
      exact forall_congr' fun w => by rw [hwords.mem_iff]
    rw [foldlM_add_reverse hne hbase, foldlM_add_reverse hne' hbase', hheaded, hall,
      if_congr hbool rfl rfl]

/-! ## Drafts with other words -/

/-- The declaration with other type words. -/
def Draft.reword (ws : List TypeWord) (draft : Draft) : Draft := ⟨ws, draft.declared⟩

def Drafting.reword (ws : List TypeWord) : Drafting → Drafting
  | .declarator draft groups => .declarator (draft.reword ws) groups
  | .declared draft groups d => .declared (draft.reword ws) groups d
  | .dimension draft groups d o => .dimension (draft.reword ws) groups d o
  | .size draft groups d o e => .size (draft.reword ws) groups d o e
  | .initializer draft d levels again => .initializer (draft.reword ws) d levels again
  | .value draft d levels e => .value (draft.reword ws) d levels e
  | .initialized draft d levels i => .initialized (draft.reword ws) d levels i

def Turn.reword (ws : List TypeWord) : Turn → Turn
  | .more p => .more (p.reword ws)
  | .done draft => .done (draft.reword ws)
  | .stuck => .stuck

theorem settle_reword (ws : List TypeWord) (draft : Draft) (d : Declared) (k : Symbol) :
    settle (draft.reword ws) d k = (settle draft d k).reword ws := by
  cases k <;> rfl

theorem settleInit_reword (ws : List TypeWord) (draft : Draft) (d : Declarator)
    (levels : List Level) (i : Initializer) (k : Symbol) (text : String) :
    settleInit (draft.reword ws) d levels i k text =
      (settleInit draft d levels i k text).reword ws := by
  cases levels with
  | nil => exact settle_reword ws draft _ k
  | cons l ls => cases k <;> rfl

/-- The tokens of a declaration are read without a look at its type words. -/
theorem Drafting.step_reword (ws : List TypeWord) (p : Drafting) (k : Symbol) (text : String) :
    (p.reword ws).step k text = (p.step k text).map (Turn.reword ws) := by
  cases p with
  | declarator draft groups => cases k <;> rfl
  | declared draft groups d =>
    cases groups with
    | zero =>
      cases k with
      | leftBracket => rfl
      | assign op => cases op <;> rfl
      | _ => exact congrArg Except.ok (settle_reword ws draft _ _)
    | succ g =>
      cases k with
      | assign op => cases op <;> rfl
      | _ => rfl
  | dimension draft groups d o =>
    simp only [reword, step]
    split
    · rfl
    · cases Expr.startOperand [] k text <;> rfl
  | size draft groups d o e =>
    simp only [reword, step]
    rcases e.step .action false k text with f | e' | e' | _
    · rfl
    · rfl
    · cases k <;> rfl
    · rfl
  | initializer draft d levels again =>
    simp only [reword, step]
    split
    · rfl
    · split
      · rfl
      · cases Expr.startOperand [] k text <;> rfl
  | value draft d levels e =>
    simp only [reword, step]
    rcases e.step .action false k text with f | e' | e' | _
    · rfl
    · rfl
    · exact congrArg Except.ok (settleInit_reword ws draft d levels _ k text)
    · rfl
  | initialized draft d levels i =>
    exact congrArg Except.ok (settleInit_reword ws draft d levels i k text)

/-! ## States -/

/-- Two states are the same, but for type words that say the same in the declaration that is being
read. -/
inductive State.Alike : State → State → Prop
  | refl (s : State) : Alike s s
  | declaring {ws ws' : List TypeWord} (h : (resolve ws).toOption = (resolve ws').toOption)
      (depth : Nat) (items : List Item) (p : Drafting) :
      Alike ⟨depth, items, .declaring (p.reword ws)⟩ ⟨depth, items, .declaring (p.reword ws')⟩
  | complete {ws ws' : List TypeWord} (h : (resolve ws).toOption = (resolve ws').toOption)
      (depth : Nat) (items : List Item) (draft : Draft) :
      Alike ⟨depth, items, .complete (draft.reword ws)⟩ ⟨depth, items, .complete (draft.reword ws')⟩

theorem State.close_reword {ws ws' : List TypeWord}
    (h : (resolve ws).toOption = (resolve ws').toOption) (depth : Nat) (items : List Item)
    (draft : Draft) (p p' : Position) :
    (State.close ⟨depth, items, p⟩ (draft.reword ws)).toOption =
      (State.close ⟨depth, items, p'⟩ (draft.reword ws')).toOption := by
  show (resolve ws >>= _).toOption = (resolve ws' >>= _).toOption
  cases hws : resolve ws <;> cases hws' : resolve ws' <;> rw [hws, hws'] at h <;> cases h
  · rfl
  · rfl

/-- Behind a complete declaration an item may start, if the declaration can be judged. -/
theorem next_complete (depth : Nat) (items : List Item) (draft : Draft) (t : Symbol × String) :
    next ⟨depth, items, .complete draft⟩ t =
      if mayFollowItem t.1 then
        (State.close ⟨depth, items, .complete draft⟩ draft).toOption.bind (·.startItem t.1 t.2)
      else none := by
  simp only [next, State.advance]
  cases mayFollowItem t.1 with
  | false => rfl
  | true => cases State.close ⟨depth, items, .complete draft⟩ draft <;> rfl

theorem State.Alike.next {s s' : State} (h : s.Alike s') (t : Symbol × String) :
    Option.Rel State.Alike (next s t) (next s' t) := by
  have hrefl (s? : Option State) : Option.Rel State.Alike s? s? := by
    cases s? with
    | none => exact .none
    | some s => exact .some (.refl s)
  cases h with
  | refl => exact hrefl _
  | @declaring ws ws' h depth items p =>
    simp only [Action.next, State.advance, Drafting.step_reword]
    rcases p.step t.1 t.2 with f | p' | draft | _
    · exact .none
    · exact .some (.declaring h depth items p')
    · exact .some (.complete h depth items draft)
    · exact .none
  | @complete ws ws' h depth items draft =>
    rw [next_complete, next_complete, State.close_reword h]
    exact hrefl _

/-- States that are alike are alike after more tokens. -/
theorem State.Alike.foldlM {s s' : State} (h : s.Alike s') (ts : List (Symbol × String)) :
    Option.Rel State.Alike (ts.foldlM Action.next s) (ts.foldlM Action.next s') := by
  induction ts generalizing s s' with
  | nil => exact .some h
  | cons t ts ih =>
    have hnext := h.next t
    rw [List.foldlM_cons, List.foldlM_cons]
    generalize Action.next s t = u at hnext
    generalize Action.next s' t = u' at hnext
    cases hnext with
    | none => exact .none
    | some h => exact ih h

theorem State.Alike.finish {s s' : State} (h : s.Alike s') :
    (finish s).toOption = (finish s').toOption := by
  cases h with
  | refl => rfl
  | declaring => rfl
  | @complete ws ws' h depth items draft =>
    have hclose := State.close_reword h depth items draft (.complete (draft.reword ws))
      (.complete (draft.reword ws'))
    unfold Action.finish
    dsimp only
    generalize State.close ⟨depth, items, .complete (draft.reword ws)⟩ (draft.reword ws) = x at *
    generalize State.close ⟨depth, items, .complete (draft.reword ws')⟩ (draft.reword ws') = x' at *
    cases x <;> cases x' <;> cases hclose
    · rfl
    · rfl

/-! ## Texts -/

/-- The type words, each with a blank behind it, and then the rest of a text. -/
def withWords : List TypeWord → String → String
  | [], rest => rest
  | w :: ws, rest => w.spelling ++ " " ++ withWords ws rest

/-- The type words as tokens. -/
def wordTokens (ws : List TypeWord) : List (Symbol × String) :=
  ws.map fun w => (.typeWord w, w.spelling)

theorem match?_word (w : TypeWord) (rest : List Char) :
    lexer.match? (w.spelling.toList ++ ' ' :: rest) =
      some ⟨some (.typeWord w), w.spelling.toList, 0⟩ := by
  have hname : ∀ w : TypeWord, w.spelling.toList.head?.any Symbol.isNameStart = true ∧
      w.spelling.toList.all Symbol.isNamePart = true := by
    intro w
    cases w <;> decide
  have hkind : wordKind w.spelling = .typeWord w := by
    cases w <;> decide
  obtain ⟨hstart, hpart⟩ := hname w
  cases hw : w.spelling.toList with
  | nil =>
    rw [hw] at hstart
    cases hstart
  | cons c cs =>
    rw [hw] at hstart hpart
    have hrun : (cs ++ ' ' :: rest).takeWhile Symbol.isNamePart = cs :=
      Label.Parts.takeWhile_run
        (fun d hd => List.all_eq_true.mp hpart d (List.mem_cons_of_mem _ hd))
        (by rintro d hd; cases hd; rfl)
    have hc : Symbol.isNameStart c = true := hstart
    rw [List.cons_append, Lexer.match?_cons]
    simp only [lexer, List.findSome?_cons, Symbol.nameRule, Rule.match?_run, hc, if_true, hrun]
    rw [← hw, String.ofList_toList, hkind]
    rfl

theorem cuts_word {w : TypeWord} {rest : List Char} {ts : List (Symbol × String)} :
    lexer.Cuts (w.spelling.toList ++ ' ' :: rest) ts none ↔
      ∃ us, ts = (.typeWord w, w.spelling) :: us ∧ lexer.Cuts rest us none := by
  have hm := match?_word w rest
  have hchars := String.ofList_toList (s := w.spelling)
  have hskip : w.spelling.toList.head?.any lexer.skipped = false := by
    cases w <;> decide
  cases hw : w.spelling.toList with
  | nil => cases w <;> cases hw
  | cons c cs =>
    rw [hw] at hm hskip hchars
    rw [List.cons_append] at hm ⊢
    have hdrop : (c :: (cs ++ ' ' :: rest)).drop (c :: cs).length = ' ' :: rest :=
      List.drop_left' rfl
    constructor
    · intro h
      obtain ⟨us, rfl, hafter⟩ := h.of_kept hskip hm rfl
      rw [hchars]
      rw [hdrop] at hafter
      cases hafter with
      | skip _ hafter => exact ⟨us, rfl, hafter⟩
      | drop hs | keep hs => cases hs
    · rintro ⟨us, rfl, h⟩
      have hblank : lexer.Cuts (' ' :: rest) us none := .skip rfl h
      rw [← hdrop] at hblank
      have hkeep := Lexer.Cuts.keep hskip hm rfl hblank
      rwa [hchars] at hkeep

theorem cuts_withWords {ws : List TypeWord} {rest : String} {ts : List (Symbol × String)} :
    lexer.Cuts (withWords ws rest).toList ts none ↔
      ∃ us, ts = wordTokens ws ++ us ∧ lexer.Cuts rest.toList us none := by
  induction ws generalizing ts with
  | nil => simp [withWords, wordTokens]
  | cons w ws ih =>
    have htext : (withWords (w :: ws) rest).toList =
        w.spelling.toList ++ ' ' :: (withWords ws rest).toList := by
      simp [withWords]
    rw [htext, cuts_word]
    constructor
    · rintro ⟨us, rfl, h⟩
      obtain ⟨vs, rfl, hrest⟩ := ih.mp h
      exact ⟨vs, rfl, hrest⟩
    · rintro ⟨us, rfl, h⟩
      exact ⟨_, rfl, ih.mpr ⟨us, rfl, h⟩⟩

theorem foldlM_wordTokens (ws us : List TypeWord) :
    (wordTokens ws).foldlM next ⟨0, [], .words us⟩ = some ⟨0, [], .words (ws.reverse ++ us)⟩ := by
  induction ws generalizing us with
  | nil => rfl
  | cons w ws ih =>
    rw [List.reverse_cons, List.append_assoc]
    exact ih (w :: us)

theorem read_withWords {ws : List TypeWord} (hws : ws ≠ []) {rest : String} {line : Nat}
    {items : List Item} :
    (read line (withWords ws rest)).1 = .ok items ↔
      ∃ ts, lexer.Cuts rest.toList ts none ∧
        ∃ s, ts.foldlM next ⟨0, [], .words ws.reverse⟩ = some s ∧ finish s = .ok items := by
  have hfront : (withWords ws rest).toList.head? ≠ some '=' := by
    cases ws with
    | nil => exact absurd rfl hws
    | cons w ws =>
      rw [withWords, String.append_assoc, String.toList_append]
      cases w <;> simp [TypeWord.spelling]
  have hrun (ts : List (Symbol × String)) :
      (wordTokens ws ++ ts).foldlM next reader.start =
        ts.foldlM next ⟨0, [], .words ws.reverse⟩ := by
    cases ws with
    | nil => exact absurd rfl hws
    | cons w ws =>
      rw [List.foldlM_append]
      show (wordTokens ws).foldlM next ⟨0, [], .words [w]⟩ >>= _ = _
      rw [foldlM_wordTokens, List.reverse_cons]
      rfl
  rw [read_eq_ok, and_iff_right hfront]
  simp only [cuts_withWords]
  constructor
  · rintro ⟨_, s, ⟨ts, rfl, hcuts⟩, hs, hfinish⟩
    exact ⟨ts, hcuts, s, hrun ts ▸ hs, hfinish⟩
  · rintro ⟨ts, hcuts, s, hs, hfinish⟩
    exact ⟨_, s, ⟨ts, rfl, hcuts⟩, (hrun ts).trans hs, hfinish⟩

/-- Behind the type words comes something else, and then they do not change any more. -/
theorem next_words {ws ws' : List TypeWord} (h : (resolve ws).toOption = (resolve ws').toOption)
    {t : Symbol × String} (ht : ∀ w, t.1 ≠ .typeWord w) :
    Option.Rel State.Alike (next ⟨0, [], .words ws⟩ t) (next ⟨0, [], .words ws'⟩ t) := by
  obtain ⟨k, text⟩ := t
  cases k with
  | typeWord w => exact absurd rfl (ht w)
  | identifier => exact .some (.declaring h 0 [] (.declared ⟨[], []⟩ 0 (.name text)))
  | leftParen => exact .some (.declaring h 0 [] (.declarator ⟨[], []⟩ 1))
  | semicolon | newline => exact .some (.refl _)
  | _ => exact .none

theorem finish_words {ws ws' : List TypeWord}
    (h : (resolve ws).toOption = (resolve ws').toOption) {ts : List (Symbol × String)}
    (hts : ∀ t ∈ ts.head?, ∀ w, t.1 ≠ .typeWord w) {items : List Item}
    (hrun : ∃ s, ts.foldlM next ⟨0, [], .words ws⟩ = some s ∧ finish s = .ok items) :
    ∃ s, ts.foldlM next ⟨0, [], .words ws'⟩ = some s ∧ finish s = .ok items := by
  obtain ⟨s, hs, hfinish⟩ := hrun
  cases ts with
  | nil =>
    cases hs
    cases hfinish
  | cons t ts =>
    have hnext := next_words h (hts t rfl)
    rw [List.foldlM_cons] at hs ⊢
    generalize next ⟨0, [], .words ws⟩ t = u at hs hnext
    generalize next ⟨0, [], .words ws'⟩ t = u' at hnext
    cases hnext with
    | none => cases hs
    | @some s₁ s₁' halike =>
      have hrel := halike.foldlM ts
      rw [show ts.foldlM next s₁ = some s from hs] at hrel
      cases hs' : ts.foldlM next s₁' with
      | none =>
        rw [hs'] at hrel
        cases hrel
      | some s' =>
        rw [hs'] at hrel
        cases hrel with
        | some hlast =>
          have hsame := hlast.finish
          rw [hfinish] at hsame
          exact ⟨s', hs', toOption_eq_some.mp hsame.symm⟩

/-- A declaration says the same with its type words in another order, unless one order has a word
for integers last, behind modifiers only, and the other has not: neither can be read, or both have
the same statements and the same variables, with their types, constancy and initial values. -/
theorem type_words_reordered {ws ws' : List TypeWord} {rest : String} (hws : ws ≠ [])
    (hperm : ws.Perm ws') (hex : Exchangeable ws ws') (line : Nat)
    (hrest : ∀ t ∈ (lexer.scan line rest.toList).tokens.head?, ∀ w, t.kind ≠ .typeWord w)
    (l l' : Nat) (owner : String) (vars : Variables) :
    (parse l (withWords ws rest) owner vars).1.toOption =
      (parse l' (withWords ws' rest) owner vars).1.toOption := by
  have hws' : ws' ≠ [] := fun h => hws (h ▸ hperm).eq_nil
  have hresolve := resolve_reverse_of_perm hperm hex
  have hhead {ts : List (Symbol × String)} (hcuts : lexer.Cuts rest.toList ts none) :
      ∀ t ∈ ts.head?, ∀ w, t.1 ≠ .typeWord w := by
    obtain ⟨rfl, -⟩ := (lexer.cuts_scan line rest.toList).unique hcuts
    intro t ht
    rw [List.head?_map] at ht
    obtain ⟨token, htoken, rfl⟩ := Option.map_eq_some_iff.mp ht
    exact hrest token htoken
  have hread (items : List Item) :
      (read l (withWords ws rest)).1 = .ok items ↔
        (read l' (withWords ws' rest)).1 = .ok items := by
    rw [read_withWords hws, read_withWords hws']
    refine exists_congr fun ts => and_congr_right fun hcuts => ?_
    exact ⟨finish_words hresolve (hhead hcuts), finish_words hresolve.symm (hhead hcuts)⟩
  refine Option.ext fun r => ?_
  rw [toOption_eq_some, toOption_eq_some, parse_eq_ok, parse_eq_ok]
  exact exists_congr fun items => and_congr_left fun _ => hread items

/-- The first word goes to the end, and the two behind it change places. -/
theorem type_words_reordered_counters :
    [TypeWord.const, .unsigned, .long, .int].Perm [.long, .unsigned, .int, .const] ∧
      (parse 1 (withWords [.const, .unsigned, .long, .int] "n = 1, m;") "p_" .empty).1.toOption =
        some ([], ⟨[(some "p_n", ⟨.int, true, some "1", .label⟩),
          (some "p_m", ⟨.int, true, none, .label⟩)]⟩) ∧
      (parse 1 (withWords [.const, .unsigned, .long, .int] "n = 1, m;") "p_" .empty).1.toOption =
        (parse 1 (withWords [.long, .unsigned, .int, .const] "n = 1, m;") "p_"
          .empty).1.toOption := by
  have hperm : [TypeWord.const, .unsigned, .long, .int].Perm [.long, .unsigned, .int, .const] := by
    decide
  have hex : Exchangeable [.const, .unsigned, .long, .int] [.long, .unsigned, .int, .const] := by
    refine .inl ⟨by decide, ?_, ?_⟩
    · rintro w ⟨⟩
      decide
    · rintro w ⟨⟩
      decide
  have hrest : ∀ t ∈ (lexer.scan 1 "n = 1, m;".toList).tokens.head?, ∀ w, t.kind ≠ .typeWord w := by
    rintro t ht w
    cases ht
    exact Symbol.noConfusion
  exact ⟨hperm, by decide +kernel,
    type_words_reordered (by decide) hperm hex 1 hrest 1 1 "p_" .empty⟩

/-- A modifier behind the word for a type is not taken as one in front of it. -/
theorem unsigned_behind_int_refused :
    [TypeWord.unsigned, .int].Perm [.int, .unsigned] ∧
      (parse 1 (withWords [.unsigned, .int] "x;") "" .empty).1 =
        .ok ([], ⟨[(some "x", ⟨.int, false, none, .label⟩)]⟩) ∧
      (parse 1 (withWords [.int, .unsigned] "x;") "" .empty).1 = .error .typeWords := by
  decide +kernel

end Statechart.Action
