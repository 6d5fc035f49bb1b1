import Mathlib.Data.List.TakeWhile
import Statechart.Proofs.Action.Sequencing
import Statechart.Proofs.Expr.Statements

/-!
The words of actions. What a reader keeps of a text are texts of tokens. So in the items of an
action every operand is a word, and so is every name that is declared, and what opens a dimension is
a bracket (`read_spelled`). Each token keeps this up (`State.Spelled.next`).
-/

namespace Statechart

/-- All characters are those of names. -/
def Symbol.IsWord (s : String) : Prop := ∀ c ∈ s.toList, Symbol.isNamePart c = true

namespace Expr

/-- The identifiers and numbers in an expression. -/
def atoms : Expr → List String
  | atom s => [s]
  | group e | unary _ e | step _ e => e.atoms
  | index b _ e _ => b.atoms ++ e.atoms
  | binary _ l r | assign _ l r | comma l r => l.atoms ++ r.atoms

def Worded (e : Expr) : Prop := ∀ a ∈ e.atoms, Symbol.IsWord a

/-! ## Reading expressions -/

def Frame.atoms : Frame → List String
  | plus | unary _ | step _ | group => []
  | binary _ e | assign _ e | comma e | index e _ => e.atoms

/-- The words that were read around a place. -/
def Frame.Worded (f : Frame) : Prop := ∀ a ∈ f.atoms, Symbol.IsWord a

def Position.Worded : Position → Prop
  | operand fs => ∀ f ∈ fs, f.Worded
  | indexNumber fs b _ => (∀ f ∈ fs, f.Worded) ∧ b.Worded
  | indexClose fs b _ n => (∀ f ∈ fs, f.Worded) ∧ b.Worded ∧ Symbol.IsWord n
  | after fs e _ => (∀ f ∈ fs, f.Worded) ∧ e.Worded

def Outcome.Worded : Outcome → Prop
  | more p => p.Worded
  | done e => e.Worded
  | stuck => True

theorem worded_closeUnary {fs fs' : List Frame} {e e' : Expr}
    (h : closeUnary fs e = .ok (fs', e')) (hfs : ∀ f ∈ fs, f.Worded) (he : e.Worded) :
    (∀ f ∈ fs', f.Worded) ∧ e'.Worded := by
  fun_induction closeUnary fs e with
  | case1 => cases h
  | case2 op fs e ih => exact ih h (fun f hf => hfs f (List.mem_cons_of_mem _ hf)) he
  | case3 fs e =>
    cases h
    exact ⟨hfs, he⟩

theorem worded_closeBinary {n : Nat} {fs : List Frame} {e : Expr} (hfs : ∀ f ∈ fs, f.Worded)
    (he : e.Worded) :
    (∀ f ∈ (closeBinary n fs e).1, f.Worded) ∧ (closeBinary n fs e).2.Worded := by
  fun_induction closeBinary n fs e with
  | case1 op l fs e _ ih =>
    obtain ⟨hl, hfs⟩ := List.forall_mem_cons.mp hfs
    exact ih hfs (List.forall_mem_append.mpr ⟨hl, he⟩)
  | case2 => exact ⟨hfs, he⟩
  | case3 => exact ⟨hfs, he⟩

theorem worded_closeAll {fs : List Frame} {e : Expr} (hfs : ∀ f ∈ fs, f.Worded)
    (he : e.Worded) :
    (∀ f ∈ (closeAll fs e).1, f.Worded) ∧ (closeAll fs e).2.Worded := by
  fun_induction closeAll fs e with
  | case1 op l fs e ih | case3 op l fs e ih | case4 l fs e ih =>
    obtain ⟨hl, hfs⟩ := List.forall_mem_cons.mp hfs
    exact ih hfs (List.forall_mem_append.mpr ⟨hl, he⟩)
  | case2 op fs e ih => exact ih (List.forall_mem_cons.mp hfs).2 he
  | case5 => exact ⟨hfs, he⟩

theorem worded_startOperand {fs : List Frame} {k : Symbol} {text : String}
    (hfs : ∀ f ∈ fs, f.Worded) (htext : k = .identifier ∨ k = .number → Symbol.IsWord text) :
    (startOperand fs k text).Worded := by
  have hopens (f : Frame) (hf : f.atoms = []) : ∀ g ∈ f :: fs, g.Worded := by
    refine List.forall_mem_cons.mpr ⟨fun a ha => ?_, hfs⟩
    rw [hf] at ha
    cases ha
  cases k with
  | identifier | number => exact ⟨hfs, List.forall_mem_singleton.mpr (htext (by simp))⟩
  | leftParen | complement | not => exact hopens _ rfl
  | binary op =>
    cases op with
    | add | sub => exact hopens _ rfl
    | _ => trivial
  | step op =>
    simp only [startOperand]
    split
    · exact hopens _ rfl
    · trivial
  | _ => trivial

theorem worded_continueWith {commas : Bool} {fs : List Frame} {e : Expr} {extent : Extent}
    {k : Symbol} {text : String} (hfs : ∀ f ∈ fs, f.Worded) (he : e.Worded) :
    (continueWith commas fs e extent k text).Worded := by
  -- what is no operator closes all frames up to the bracket around the operand
  have hall := worded_closeAll hfs he
  rcases hclose : closeAll fs e with ⟨fs', e'⟩
  rw [hclose] at hall
  obtain ⟨hfs', he'⟩ := hall
  cases k with
  | binary op =>
    have hbinary := worded_closeBinary (n := op.strength) hfs he
    simp only [continueWith]
    split
    · trivial
    · trivial
    · next hleft =>
      rw [hleft] at hbinary
      exact List.forall_mem_cons.mpr ⟨hbinary.2, hbinary.1⟩
  | assign op =>
    simp only [continueWith]
    split
    · exact List.forall_mem_cons.mpr ⟨he, hfs⟩
    · trivial
  | step op =>
    simp only [continueWith]
    split
    · exact ⟨hfs, he⟩
    · trivial
  | comma =>
    simp only [continueWith, hclose]
    cases fs' with
    | nil =>
      show (if commas then Outcome.more (.operand [.comma e']) else .done e').Worded
      split
      · exact List.forall_mem_singleton.mpr he'
      · exact he'
    | cons f fs' => cases f <;> exact List.forall_mem_cons.mpr ⟨he', hfs'⟩
  | rightParen =>
    simp only [continueWith, hclose]
    cases fs' with
    | nil => exact he'
    | cons f fs' =>
      cases f with
      | group => exact ⟨(List.forall_mem_cons.mp hfs').2, he'⟩
      | _ => trivial
  | rightBracket =>
    simp only [continueWith, hclose]
    cases fs' with
    | nil => exact he'
    | cons f fs' =>
      obtain ⟨hf, hrest⟩ := List.forall_mem_cons.mp hfs'
      cases f with
      | index b opening => exact ⟨hrest, List.forall_mem_append.mpr ⟨hf, he'⟩⟩
      | _ => trivial
  | _ =>
    simp only [continueWith, hclose]
    cases fs' with
    | nil => exact he'
    | cons f fs' => cases f <;> trivial

theorem Position.Worded.step {d : Dialect} {commas : Bool} {p : Position} {k : Symbol}
    {text : String} {o : Outcome} (hp : p.Worded)
    (htext : k = .identifier ∨ k = .number → Symbol.IsWord text)
    (h : p.step d commas k text = .ok o) : o.Worded := by
  cases p with
  | operand fs =>
    cases h
    exact worded_startOperand hp htext
  | indexNumber fs b opening =>
    cases h
    obtain ⟨hfs, hb⟩ := hp
    split
    · next hk => exact ⟨hfs, hb, htext (.inr hk)⟩
    · trivial
  | indexClose fs b opening n =>
    cases h
    obtain ⟨hfs, hb, hn⟩ := hp
    split
    · exact ⟨hfs, List.forall_mem_append.mpr ⟨hb, List.forall_mem_singleton.mpr hn⟩⟩
    · trivial
  | after fs e extent =>
    obtain ⟨hfs, he⟩ := hp
    by_cases ho : o = .stuck
    · rw [ho]
      trivial
    · by_cases hk : k = .leftBracket
      · subst hk
        cases extent with
        | primary =>
          cases d with
          | condition =>
            cases h
            exact ⟨hfs, he⟩
          | action =>
            cases h
            exact List.forall_mem_cons.mpr ⟨he, hfs⟩
        | _ =>
          cases h
          trivial
      · obtain ⟨-, fs', e', hclose, rfl⟩ := (step_after hk ho).mp h
        obtain ⟨hfs', he'⟩ := worded_closeUnary hclose hfs he
        exact worded_continueWith hfs' he'

end Expr

namespace Action

mutual

/-- The identifiers and numbers in an initializer. -/
def Initializer.atoms : Initializer → List String
  | .value e => e.atoms
  | .braces _ is _ => Initializer.atomsAll is

def Initializer.atomsAll : List Initializer → List String
  | [] => []
  | i :: is => i.atoms ++ Initializer.atomsAll is

end

theorem Initializer.mem_atomsAll {is : List Initializer} {a : String} :
    a ∈ Initializer.atomsAll is ↔ ∃ i ∈ is, a ∈ i.atoms := by
  induction is with
  | nil => simp [Initializer.atomsAll]
  | cons i is ih => simp [Initializer.atomsAll, ih]

def Initializer.Worded (i : Initializer) : Prop := ∀ a ∈ i.atoms, Symbol.IsWord a

theorem Initializer.worded_braces {is : List Initializer} (h : ∀ i ∈ is, i.Worded)
    (opening closing : String) : (Initializer.braces opening is closing).Worded := by
  intro a ha
  obtain ⟨i, hi, ha⟩ := Initializer.mem_atomsAll.mp ha
  exact h i hi a ha

/-- The spellings of an opening bracket. -/
def IsOpening (s : String) : Prop := s = "[" ∨ s = "<:"

/-- The name is a word, and every dimension starts with a bracket. -/
def Declarator.Spelled : Declarator → Prop
  | .name s => Symbol.IsWord s
  | .group d => d.Spelled
  | .sized d o _ _ | .unsized d o _ => d.Spelled ∧ IsOpening o

def Declared.Spelled (d : Declared) : Prop :=
  d.declarator.Spelled ∧ ∀ i ∈ d.init, i.Worded

def Item.Spelled : Item → Prop
  | .statement e => e.Worded
  | .declaration _ _ ds => ∀ d ∈ ds, d.Spelled

/-! ## Reading declarations -/

def Draft.Spelled (draft : Draft) : Prop := ∀ d ∈ draft.declared, d.Spelled

def Level.Worded (l : Level) : Prop := ∀ i ∈ l.items, i.Worded

def Drafting.Spelled : Drafting → Prop
  | .declarator draft _ => draft.Spelled
  | .declared draft _ d => draft.Spelled ∧ d.Spelled
  | .dimension draft _ d o | .size draft _ d o _ => draft.Spelled ∧ d.Spelled ∧ IsOpening o
  | .initializer draft d levels _ => draft.Spelled ∧ d.Spelled ∧ ∀ l ∈ levels, l.Worded
  | .value draft d levels e => draft.Spelled ∧ d.Spelled ∧ (∀ l ∈ levels, l.Worded) ∧ e.Worded
  | .initialized draft d levels i =>
    draft.Spelled ∧ d.Spelled ∧ (∀ l ∈ levels, l.Worded) ∧ i.Worded

def Turn.Spelled : Turn → Prop
  | .more p => p.Spelled
  | .done draft => draft.Spelled
  | .stuck => True

/-- What is known of the text of a token by its kind. -/
structure IsToken (k : Symbol) (text : String) : Prop where
  word : k = .identifier ∨ k = .number → Symbol.IsWord text
  opening : k = .leftBracket → IsOpening text

theorem IsToken.worded_of_startOperand {k : Symbol} {text : String} (ht : IsToken k text)
    {e : Expr.Position} (h : Expr.startOperand [] k text = .more e) : e.Worded := by
  have hstarted : (Expr.startOperand [] k text).Worded :=
    Expr.worded_startOperand (by simp) ht.word
  rw [h] at hstarted
  exact hstarted

theorem spelled_settle {draft : Draft} {d : Declared} (hdraft : draft.Spelled) (hd : d.Spelled)
    (k : Symbol) : (settle draft d k).Spelled := by
  have hall : Draft.Spelled { draft with declared := draft.declared ++ [d] } :=
    List.forall_mem_append.mpr ⟨hdraft, List.forall_mem_singleton.mpr hd⟩
  cases k with
  | comma | semicolon | newline => exact hall
  | _ => trivial

theorem spelled_settleInit {draft : Draft} {d : Declarator} {levels : List Level}
    {i : Initializer} (hdraft : draft.Spelled) (hd : d.Spelled) (hlevels : ∀ l ∈ levels, l.Worded)
    (hi : i.Worded) (k : Symbol) (text : String) :
    (settleInit draft d levels i k text).Spelled := by
  cases levels with
  | nil => exact spelled_settle hdraft ⟨hd, by simpa using hi⟩ k
  | cons l ls =>
    obtain ⟨hl, hls⟩ := List.forall_mem_cons.mp hlevels
    have hitems : ∀ j ∈ l.items ++ [i], j.Worded :=
      List.forall_mem_append.mpr ⟨hl, List.forall_mem_singleton.mpr hi⟩
    cases k with
    | comma => exact ⟨hdraft, hd, List.forall_mem_cons.mpr ⟨hitems, hls⟩⟩
    | rightBrace => exact ⟨hdraft, hd, hls, Initializer.worded_braces hitems _ _⟩
    | _ => trivial

theorem Drafting.Spelled.step {p : Drafting} (hp : p.Spelled) {k : Symbol} {text : String}
    (ht : IsToken k text) {t : Turn} (h : p.step k text = .ok t) : t.Spelled := by
  cases p with
  | declarator draft groups =>
    cases h
    cases k with
    | identifier => exact ⟨hp, ht.word (.inl rfl)⟩
    | leftParen => exact hp
    | _ => trivial
  | declared draft groups d =>
    cases h
    obtain ⟨hdraft, hd⟩ := hp
    cases k with
    | leftBracket => exact ⟨hdraft, hd, ht.opening rfl⟩
    | rightParen =>
      cases groups with
      | zero => trivial
      | succ g => exact ⟨hdraft, hd⟩
    | assign op =>
      cases op with
      | store =>
        cases groups with
        | zero => exact ⟨hdraft, hd, by simp⟩
        | succ g => trivial
      | _ => cases groups <;> trivial
    | _ =>
      cases groups with
      | zero => exact spelled_settle hdraft ⟨hd, by simp⟩ _
      | succ g => trivial
  | dimension draft groups d o =>
    obtain ⟨hdraft, hd, ho⟩ := hp
    simp only [Drafting.step] at h
    split at h
    · cases h
      exact ⟨hdraft, hd, ho⟩
    · split at h
      · cases h
        exact ⟨hdraft, hd, ho⟩
      · cases h
        trivial
  | size draft groups d o e =>
    obtain ⟨hdraft, hd, ho⟩ := hp
    obtain ⟨o', -, h⟩ := bind_eq_ok.mp h
    split at h
    · cases h
      exact ⟨hdraft, hd, ho⟩
    · cases h
      exact ⟨hdraft, hd, ho⟩
    · cases h
      trivial
  | initializer draft d levels again =>
    obtain ⟨hdraft, hd, hlevels⟩ := hp
    simp only [Drafting.step] at h
    split at h
    · cases h
      exact ⟨hdraft, hd, List.forall_mem_cons.mpr ⟨by simp [Level.Worded], hlevels⟩⟩
    · split at h
      · cases h
      · split at h
        · next e hstart =>
          cases h
          exact ⟨hdraft, hd, hlevels, ht.worded_of_startOperand hstart⟩
        · cases h
          trivial
  | value draft d levels e =>
    obtain ⟨hdraft, hd, hlevels, he⟩ := hp
    obtain ⟨o, hstep, h⟩ := bind_eq_ok.mp h
    have ho := he.step ht.word hstep
    cases o with
    | more e' =>
      cases h
      exact ⟨hdraft, hd, hlevels, ho⟩
    | done e' =>
      cases h
      exact spelled_settleInit hdraft hd hlevels (show (Initializer.value e').Worded from ho) k text
    | stuck =>
      cases h
      trivial
  | initialized draft d levels i =>
    cases h
    obtain ⟨hdraft, hd, hlevels, hi⟩ := hp
    exact spelled_settleInit hdraft hd hlevels hi k text

/-! ## Reading items -/

def Position.Spelled : Position → Prop
  | .boundary | .words _ => True
  | .statement e => e.Worded
  | .declaring p => p.Spelled
  | .complete draft => draft.Spelled

structure State.Spelled (s : State) : Prop where
  items : ∀ i ∈ s.items, i.Spelled
  position : s.position.Spelled

theorem State.Spelled.add {s : State} (hs : s.Spelled) {i : Item} (hi : i.Spelled) :
    ∀ j ∈ s.items ++ [i], j.Spelled :=
  List.forall_mem_append.mpr ⟨hs.items, List.forall_mem_singleton.mpr hi⟩

theorem State.Spelled.close {s s' : State} (hs : s.Spelled) {draft : Draft}
    (hdraft : draft.Spelled) (h : s.close draft = .ok s') : s'.Spelled := by
  obtain ⟨⟨type, const⟩, -, h⟩ := bind_eq_ok.mp h
  cases h
  exact ⟨hs.add hdraft, trivial⟩

theorem State.Spelled.startItem {s s' : State} (hs : s.Spelled) {k : Symbol} {text : String}
    (ht : IsToken k text) (h : s.startItem k text = some s') : s'.Spelled := by
  cases k with
  | semicolon | newline | leftBrace | typeWord w =>
    cases h
    exact ⟨hs.items, trivial⟩
  | rightBrace =>
    simp only [State.startItem] at h
    split at h
    · cases h
    · cases h
      exact ⟨hs.items, trivial⟩
  | _ =>
    simp only [State.startItem] at h
    split at h
    · next e hstart =>
      cases h
      exact ⟨hs.items, ht.worded_of_startOperand hstart⟩
    · cases h

theorem State.Spelled.advance {s s' : State} (hs : s.Spelled) {k : Symbol} {text : String}
    (ht : IsToken k text) (h : s.advance k text = .ok (some s')) : s'.Spelled := by
  have hp := hs.position
  cases hposition : s.position with
  | boundary =>
    simp only [State.advance, hposition] at h
    exact hs.startItem ht (Except.ok.inj h)
  | complete draft =>
    rw [hposition] at hp
    simp only [State.advance, hposition] at h
    split at h
    · obtain ⟨s₁, hclose, h⟩ := bind_eq_ok.mp h
      exact (hs.close hp hclose).startItem ht (Except.ok.inj h)
    · cases h
  | statement e =>
    rw [hposition] at hp
    simp only [State.advance, hposition] at h
    obtain ⟨o, hstep, h⟩ := bind_eq_ok.mp h
    have ho := Expr.Position.Worded.step hp ht.word hstep
    split at h
    · cases h
      exact ⟨hs.items, ho⟩
    · cases h
      exact ⟨hs.add ho, trivial⟩
    · cases h
      exact ⟨hs.add ho, trivial⟩
    · cases h
  | words ws =>
    simp only [State.advance, hposition] at h
    cases k with
    | typeWord w | semicolon | newline =>
      cases h
      exact ⟨hs.items, trivial⟩
    | identifier =>
      cases h
      exact ⟨hs.items, List.forall_mem_nil _, ht.word (.inl rfl)⟩
    | leftParen =>
      cases h
      exact ⟨hs.items, List.forall_mem_nil _⟩
    | _ => cases h
  | declaring p =>
    rw [hposition] at hp
    simp only [State.advance, hposition] at h
    obtain ⟨t, hstep, h⟩ := bind_eq_ok.mp h
    have hturn := Drafting.Spelled.step hp ht hstep
    cases t with
    | more p' =>
      cases h
      exact ⟨hs.items, hturn⟩
    | done draft =>
      cases h
      exact ⟨hs.items, hturn⟩
    | stuck => cases h

theorem State.Spelled.next {s s' : State} (hs : s.Spelled) {t : Symbol × String}
    (ht : IsToken t.1 t.2) (h : next s t = some s') : s'.Spelled := by
  unfold Action.next at h
  split at h
  · next s'' hadvance =>
    subst h
    exact hs.advance ht hadvance
  · cases h

theorem foldlM_spelled {ts : List (Symbol × String)} (hts : ∀ t ∈ ts, IsToken t.1 t.2)
    {s s' : State} (hs : s.Spelled) (h : ts.foldlM next s = some s') : s'.Spelled := by
  induction ts generalizing s with
  | nil =>
    cases h
    exact hs
  | cons t ts ih =>
    obtain ⟨ht, hrest⟩ := List.forall_mem_cons.mp hts
    obtain ⟨s₁, hnext, h⟩ := Option.bind_eq_some_iff.mp h
    exact ih hrest (hs.next ht hnext) h

/-! ## Tokens -/

/-- The rules of actions. -/
theorem rule_cases : ∀ r ∈ lexer.rules,
    r = Symbol.nameRule wordKind ∨ r = Symbol.numberRule ∨
      r = ⟨.spelled [['\n']], fun _ => some .newline, true⟩ ∨ r = Symbol.commentRule ∨
      ∃ q ∈ sharedTokens ++ extraTokens, r = Symbol.spelledRule q.1 q.2 := by
  simp [lexer, sharedTokens, extraTokens, Symbol.leftBracketRule, Symbol.rightBracketRule]

theorem wordKind_ne (s : String) : wordKind s ≠ .leftBracket := by
  unfold wordKind
  split <;> simp

/-- A token of one character is no word and no bracket. -/
theorem isToken_of_literal {c : Char} {k : Symbol} (h : lexer.literal? c = some k)
    (text : String) : IsToken k text := by
  have hmark : k ≠ .identifier ∧ k ≠ .number ∧ k ≠ .leftBracket := by
    simp only [lexer] at h
    split at h
    · cases h
      simp
    · unfold Symbol.ofChar? at h
      split at h <;> cases h <;> simp
  obtain ⟨hidentifier, hnumber, hbracket⟩ := hmark
  exact ⟨by simp [hidentifier, hnumber], by simp [hbracket]⟩

theorem isToken_of_match? {c : Char} {cs : List Char} {m : Lexer.Match Symbol} {k : Symbol}
    (hm : lexer.match? (c :: cs) = some m) (hk : m.kind? = some k) :
    IsToken k (String.ofList m.text) := by
  have hrun {first : Char → Bool} (hfirst : ∀ d, first d = true → Symbol.isNamePart d = true)
      {rest : Char → Bool} (hrest : ∀ d, rest d = true → Symbol.isNamePart d = true)
      (hc : first c = true) : Symbol.IsWord (String.ofList (c :: cs.takeWhile rest)) := by
    intro d hd
    rw [String.toList_ofList] at hd
    rcases List.mem_cons.mp hd with rfl | hd
    · exact hfirst d hc
    · exact hrest d (List.mem_takeWhile_imp hd)
  rw [Lexer.match?_cons] at hm
  rcases Option.or_eq_some_iff.mp hm with hm | ⟨-, hm⟩
  · obtain ⟨r, hr, hm⟩ := List.exists_of_findSome?_eq_some hm
    rcases rule_cases r hr with rfl | rfl | rfl | rfl | ⟨q, hq, rfl⟩
    · simp only [Symbol.nameRule, Rule.match?_run] at hm
      split at hm
      · next hc =>
        cases hm
        cases hk
        exact ⟨fun _ => hrun (fun d => Symbol.isNamePart_of_isNameStart) (fun d hd => hd) hc,
          fun h => absurd h (wordKind_ne _)⟩
      · cases hm
    · simp only [Symbol.numberRule, Rule.match?_run] at hm
      split at hm
      · next hc =>
        cases hm
        cases hk
        exact ⟨fun _ => hrun (fun d => Symbol.isNamePart_of_isDigit)
          (fun d => Symbol.isNamePart_of_isDigit) hc, by simp⟩
      · cases hm
    · cases (Rule.match?_kind hm).symm.trans hk
      exact ⟨by simp, by simp⟩
    · cases (Rule.match?_kind hm).symm.trans hk
    · obtain ⟨hkind, o, ho, htext⟩ := spelledRule_match? hm
      cases hkind.symm.trans hk
      rw [htext, String.ofList_toList]
      have hspelled : ∀ q ∈ sharedTokens ++ extraTokens, q.2 ≠ .identifier ∧ q.2 ≠ .number ∧
          (q.2 = .leftBracket → ∀ o ∈ q.1, o = "[" ∨ o = "<:") := by
        decide
      obtain ⟨hidentifier, hnumber, hbracket⟩ := hspelled q hq
      exact ⟨by simp [hidentifier, hnumber], fun h => hbracket h o ho⟩
  · obtain ⟨k', hliteral, rfl⟩ := Option.map_eq_some_iff.mp hm
    cases hk
    exact isToken_of_literal hliteral _

theorem isToken_of_cuts {cs : List Char} {ts : List (Symbol × String)} {rest : Option (List Char)}
    (h : lexer.Cuts cs ts rest) : ∀ t ∈ ts, IsToken t.1 t.2 := by
  induction h with
  | nil | stuck => simp
  | skip _ _ ih | drop _ _ _ _ ih => exact ih
  | keep _ hm hk _ ih => exact List.forall_mem_cons.mpr ⟨isToken_of_match? hm hk, ih⟩

/-- In the items of an action operands and declared names are words, and dimensions start with a
bracket. -/
theorem read_spelled {line : Nat} {text : String} {items : List Item}
    (h : (read line text).1 = .ok items) : ∀ i ∈ items, i.Spelled := by
  obtain ⟨-, ts, s, hcuts, hrun, hfinish⟩ := read_eq_ok.mp h
  have hstart : reader.start.Spelled := ⟨List.forall_mem_nil _, trivial⟩
  have hs := foldlM_spelled (isToken_of_cuts hcuts) hstart hrun
  rcases finish_eq_ok hfinish with rfl | ⟨draft, hp, hclose⟩
  · exact hs.items
  · have hdraft := hs.position
    rw [hp] at hdraft
    exact (hs.close hdraft hclose).items

end Action

end Statechart
