import Mathlib.Data.List.ReduceOption
import Statechart.Proofs.Action.Redeclaration
import Statechart.Proofs.Action.Spelling

/-!
Uses of the variables that an action declares. A use is written with the owner in front if there is
a variable of that name, and variables are entered when their declaration is over, under the whole
text of the declarator. So the uses that are written in this way are those of identifiers that an
earlier declaration declares without dimensions or parentheses (`Settles.elaborate`), and not all
that should be (`uses_renamed_iff`).
-/

namespace Statechart

/-! ## Names in texts -/

/-- Two namings of words: the second gives no shorter a text, and one of the same length only if it
does so for every word. -/
def Fits (name name' : String → String) (words : List String) (n n' : Nat) : Prop :=
  n ≤ n' ∧ (n = n' → ∀ a ∈ words, (name a).length = (name' a).length)

theorem Fits.append {name name' : String → String} {words words' : List String} {n n' m m' : Nat}
    (h : Fits name name' words n n') (h' : Fits name name' words' m m') {t t' : Nat}
    (hle : n ≤ n' → m ≤ m' → t ≤ t')
    (heq : t = t' → n ≤ n' → m ≤ m' → n = n' ∧ m = m') :
    Fits name name' (words ++ words') t t' := by
  refine ⟨hle h.1 h'.1, fun ht => ?_⟩
  obtain ⟨hn, hm⟩ := heq ht h.1 h'.1
  exact List.forall_mem_append.mpr ⟨h.2 hn, h'.2 hm⟩

theorem Fits.mono {name name' : String → String} {words : List String} {n n' : Nat}
    (h : Fits name name' words n n') {t t' : Nat} (hle : n ≤ n' → t ≤ t')
    (heq : t = t' → n ≤ n' → n = n') : Fits name name' words t t' :=
  ⟨hle h.1, fun ht => h.2 (heq ht h.1)⟩

namespace Expr

theorem render_congr {name name' : String → String} {e : Expr}
    (h : ∀ a ∈ e.atoms, name a = name' a) : e.render name = e.render name' := by
  induction e with
  | atom s => exact h s (List.mem_singleton_self s)
  | group e ih | unary op e ih | step op e ih => simp only [render, ih h]
  | index b o e c ihb ihe =>
    obtain ⟨hb, he⟩ := List.forall_mem_append.mp h
    simp only [render, ihb hb, ihe he]
  | binary op l r ihl ihr | assign op l r ihl ihr | comma l r ihl ihr =>
    obtain ⟨hl, hr⟩ := List.forall_mem_append.mp h
    simp only [render, ihl hl, ihr hr]

theorem fits_render {name name' : String → String} {e : Expr}
    (h : ∀ a ∈ e.atoms, (name a).length ≤ (name' a).length) :
    Fits name name' e.atoms (e.render name).length (e.render name').length := by
  induction e with
  | atom s =>
    exact ⟨h s (List.mem_singleton_self s), fun heq => List.forall_mem_singleton.mpr heq⟩
  | group e ih | unary op e ih | step op e ih =>
    simp only [render, String.length_append]
    exact (ih h).mono (by omega) (by omega)
  | index b o e c ihb ihe =>
    obtain ⟨hb, he⟩ := List.forall_mem_append.mp h
    simp only [render, String.length_append]
    exact (ihb hb).append (ihe he) (by omega) (by omega)
  | binary op l r ihl ihr | comma l r ihl ihr =>
    obtain ⟨hl, hr⟩ := List.forall_mem_append.mp h
    simp only [render, String.length_append]
    exact (ihl hl).append (ihr hr) (by omega) (by omega)
  | assign op l r ihl ihr =>
    obtain ⟨hl, hr⟩ := List.forall_mem_append.mp h
    cases op with
    | store | colonStore | update op =>
      simp only [render, assignment, String.length_append]
      exact (ihl hl).append (ihr hr) (by omega) (by omega)

end Expr

namespace Action

mutual

theorem Initializer.render_congr {name name' : String → String} :
    ∀ {i : Initializer}, (∀ a ∈ i.atoms, name a = name' a) → i.render name = i.render name'
  | .value _, h => Expr.render_congr h
  | .braces _ _ _, h => by
    simp only [Initializer.render, Initializer.renderAll_congr h]

theorem Initializer.renderAll_congr {name name' : String → String} :
    ∀ {is : List Initializer}, (∀ a ∈ Initializer.atomsAll is, name a = name' a) →
      Initializer.renderAll name is = Initializer.renderAll name' is
  | [], _ => rfl
  | [_], h => Initializer.render_congr (List.forall_mem_append.mp h).1
  | _ :: _ :: _, h => by
    obtain ⟨hfirst, hrest⟩ := List.forall_mem_append.mp h
    simp only [Initializer.renderAll, Initializer.render_congr hfirst,
      Initializer.renderAll_congr hrest]

end

mutual

theorem Initializer.fits_render {name name' : String → String} :
    ∀ {i : Initializer}, (∀ a ∈ i.atoms, (name a).length ≤ (name' a).length) →
      Fits name name' i.atoms (i.render name).length (i.render name').length
  | .value _, h => Expr.fits_render h
  | .braces _ _ _, h => by
    simp only [Initializer.render, String.length_append]
    exact (Initializer.fits_renderAll h).mono (by omega) (by omega)

theorem Initializer.fits_renderAll {name name' : String → String} :
    ∀ {is : List Initializer}, (∀ a ∈ Initializer.atomsAll is, (name a).length ≤ (name' a).length) →
      Fits name name' (Initializer.atomsAll is) (Initializer.renderAll name is).length
        (Initializer.renderAll name' is).length
  | [], _ => ⟨Nat.le_refl _, fun _ => List.forall_mem_nil _⟩
  | [_], h => by
    simp only [Initializer.renderAll, Initializer.atomsAll, List.append_nil]
    exact Initializer.fits_render (List.forall_mem_append.mp h).1
  | _ :: _ :: _, h => by
    obtain ⟨hfirst, hrest⟩ := List.forall_mem_append.mp h
    simp only [Initializer.renderAll, String.length_append]
    exact (Initializer.fits_render hfirst).append (Initializer.fits_renderAll hrest)
      (by omega) (by omega)

end

/-! ## Sites -/

/-- A statement or an initializer of the output, and the identifiers that are declared in front of
it. Settled are those that a declaration which is over declares without dimensions or
parentheses. -/
structure Site where
  text : Initializer
  declared : List String
  settled : List String

/-- The text of a site with the owner in front of what is settled. -/
def Site.output (owner : String) (s : Site) : String := s.text.render (written owner s.settled)

/-- The text of a site with the owner in front of all that is declared. -/
def Site.due (owner : String) (s : Site) : String := s.text.render (written owner s.declared)

/-- Every use of what is declared is one of what is settled. -/
def Site.Covered (s : Site) : Prop := ∀ w ∈ s.text.atoms, w ∈ s.declared → w ∈ s.settled

instance : DecidablePred Site.Covered :=
  fun s => inferInstanceAs (Decidable (∀ w ∈ s.text.atoms, w ∈ s.declared → w ∈ s.settled))

/-- The identifiers that are declared without dimensions or parentheses. -/
def plainNames (ds : List Declared) : List String :=
  (ds.filter (·.declarator.isPlain)).map (·.declarator.identifier)

/-- The sites of the initializers in a declaration. Behind its declarator with the initializer an
identifier is declared. -/
def initSites (settled : List String) : List String → List Declared → List (Option Site)
  | _, [] => []
  | declared, d :: ds =>
    d.init.map (⟨·, declared, settled⟩) ::
      initSites settled (declared ++ [d.declarator.identifier]) ds

/-- The sites of statements, and those of initializers for each declarator. -/
def sites : List String → List String → List Item → List Site × List (Option Site)
  | _, _, [] => ([], [])
  | declared, settled, .statement e :: is =>
    let (statements, inits) := sites declared settled is
    (⟨.value e, declared, settled⟩ :: statements, inits)
  | declared, settled, .declaration type const ds :: is =>
    let (statements, inits) := sites (declared ++ (Item.declaration type const ds).identifiers)
      (settled ++ plainNames ds) is
    (statements, initSites settled declared ds ++ inits)

/-- All sites of an action, those of its statements first. -/
def allSites (items : List Item) : List Site :=
  (sites [] [] items).1 ++ (sites [] [] items).2.reduceOption

theorem length_written_le (owner : String) {known known' : List String}
    (hsub : ∀ w ∈ known, w ∈ known') (s : String) :
    (written owner known s).length ≤ (written owner known' s).length := by
  unfold written
  split
  · next hs => rw [if_pos (hsub s hs)]
  · split
    · rw [String.length_append]
      omega
    · exact Nat.le_refl _

/-- A site has the text that is due just if it is covered: each use that is not written with the
owner in front makes it shorter. -/
theorem Site.output_eq_due_iff {owner : String} (howner : owner ≠ "") {s : Site}
    (hsub : ∀ w ∈ s.settled, w ∈ s.declared) : s.output owner = s.due owner ↔ s.Covered := by
  constructor
  · intro h w hw hdeclared
    have hfits := Initializer.fits_render (i := s.text) fun a _ => length_written_le owner hsub a
    have hlength := hfits.2 (congrArg String.length h) w hw
    by_contra hsettled
    rw [written, written, if_neg hsettled, if_pos hdeclared, String.length_append] at hlength
    have hempty : owner.length = 0 := by omega
    exact howner (String.length_eq_zero_iff.mp hempty)
  · intro h
    refine Initializer.render_congr fun w hw => ?_
    unfold written
    by_cases hsettled : w ∈ s.settled
    · rw [if_pos hsettled, if_pos (hsub w hsettled)]
    · rw [if_neg hsettled, if_neg fun hdeclared => hsettled (h w hw hdeclared)]

/-! ## Names of variables -/

/-- The word at the front of a text, parentheses apart. -/
def stem (s : String) : String :=
  String.ofList ((s.toList.dropWhile (· == '(')).takeWhile Symbol.isNamePart)

namespace Declarator

theorem Spelled.identifier {d : Declarator} (hd : d.Spelled) : Symbol.IsWord d.identifier := by
  induction d with
  | name s => exact hd
  | group d ih => exact ih hd
  | sized d o e c ih | unsized d o c ih => exact ih hd.1

/-- The text of a declarator is the identifier behind opening parentheses, and what comes then does
not go on with it. -/
theorem toList_render {d : Declarator} (hd : d.Spelled) {name : String → String}
    (hname : name d.identifier = d.identifier) :
    ∃ n rest, (d.render name).toList = List.replicate n '(' ++ (d.identifier.toList ++ rest) ∧
      (∀ c ∈ rest.head?, c ∈ [')', '[', '<']) ∧ (d.isPlain = false → rest ≠ []) := by
  have hdimension {rest : List Char} (hrest : ∀ c ∈ rest.head?, c ∈ [')', '[', '<']) {o : String}
      (ho : IsOpening o) (more : List Char) :
      (∀ c ∈ (rest ++ (o.toList ++ more)).head?, c ∈ [')', '[', '<']) ∧
        rest ++ (o.toList ++ more) ≠ [] := by
    cases rest with
    | nil => rcases ho with rfl | rfl <;> simp
    | cons c rest => simpa using hrest
  induction d with
  | name s =>
    refine ⟨0, [], ?_, by simp, by simp [isPlain]⟩
    simpa [render, identifier] using congrArg String.toList hname
  | group d ih =>
    obtain ⟨n, rest, htext, hrest, -⟩ := ih hd hname
    refine ⟨n + 1, rest ++ [')'], ?_, ?_, by simp⟩
    · simp [render, htext, identifier, List.replicate_succ]
    · cases rest with
      | nil => simp
      | cons c rest => simpa using hrest
  | sized d o e c ih =>
    obtain ⟨n, rest, htext, hrest, -⟩ := ih hd.1 hname
    obtain ⟨hhead, hne⟩ := hdimension hrest hd.2 ((e.render name).toList ++ c.toList)
    refine ⟨n, _, ?_, hhead, fun _ => hne⟩
    simp [render, htext, identifier]
  | unsized d o c ih =>
    obtain ⟨n, rest, htext, hrest, -⟩ := ih hd.1 hname
    obtain ⟨hhead, hne⟩ := hdimension hrest hd.2 c.toList
    refine ⟨n, _, ?_, hhead, fun _ => hne⟩
    simp [render, htext, identifier]

theorem isNamePart_of_mark {c : Char} (h : c ∈ [')', '[', '<']) : Symbol.isNamePart c = false := by
  simp only [List.mem_cons, List.not_mem_nil, or_false] at h
  rcases h with rfl | rfl | rfl <;> rfl

theorem stem_render {d : Declarator} (hd : d.Spelled) {name : String → String}
    (hname : name d.identifier = d.identifier) : stem (d.render name) = d.identifier := by
  obtain ⟨n, rest, htext, hrest, -⟩ := toList_render hd hname
  have hword := hd.identifier
  have hdrop : (d.identifier.toList ++ rest).dropWhile (· == '(') =
      d.identifier.toList ++ rest := by
    cases hchars : d.identifier.toList with
    | nil =>
      cases rest with
      | nil => rfl
      | cons c rest =>
        have hc : c ∈ [')', '[', '<'] := hrest c rfl
        have hne : c ≠ '(' := by
          rintro rfl
          simp at hc
        simp [hne]
    | cons c cs =>
      have hc := hword c (by simp [hchars])
      have hne : c ≠ '(' := by
        rintro rfl
        cases hc
      simp [hne]
  have htake : rest.takeWhile Symbol.isNamePart = [] := by
    cases rest with
    | nil => rfl
    | cons c rest =>
      simp [isNamePart_of_mark (hrest c rfl)]
  have hparens : ∀ c ∈ List.replicate n '(', (c == '(') = true := by simp
  rw [stem, htext, List.dropWhile_append_of_pos hparens, hdrop,
    List.takeWhile_append_of_pos hword, htake, List.append_nil, String.ofList_toList]

theorem isPlain_of_isWord {d : Declarator} (hd : d.Spelled) {name : String → String}
    (hname : name d.identifier = d.identifier) (h : Symbol.IsWord (d.render name)) :
    d.isPlain = true := by
  obtain ⟨n, rest, htext, hrest, hplain⟩ := toList_render hd hname
  by_contra hnot
  cases rest with
  | nil => exact hplain (by simpa using hnot) rfl
  | cons c rest =>
    have hpart := h c (by simp [htext])
    rw [isNamePart_of_mark (hrest c rfl)] at hpart
    cases hpart

end Declarator

/-- Among the variables there are those of the settled identifiers and no others that have a word
for their name, and all are named after a declared identifier. -/
structure Settles (owner : String) (declared settled : List String) (vars : Variables) : Prop where
  contains : ∀ w, Symbol.IsWord w → (some (owner ++ w) ∈ vars.keys ↔ w ∈ settled)
  stems : ∀ k ∈ vars.keys, ∃ t, k = some (owner ++ t) ∧ stem t ∈ declared
  settled : ∀ w ∈ settled, w ∈ declared

theorem settles_empty (owner : String) : Settles owner [] [] .empty :=
  ⟨by simp [Table.keys, Table.empty], by simp [Table.keys, Table.empty], by simp⟩

section

variable {owner : String} {declared settled : List String} {vars : Variables}

theorem Settles.rename (h : Settles owner declared settled vars) {w : String}
    (hw : Symbol.IsWord w) : Action.rename owner vars w = written owner settled w := by
  have hcontains : vars.contains (some (owner ++ w)) = true ↔ w ∈ settled := by
    rw [Table.contains, Table.isSome_get?, h.contains w hw]
  simp only [Action.rename, written, hcontains]

/-- An identifier that is declared for the first time is written as it stands. -/
theorem Settles.rename_identifier (h : Settles owner declared settled vars) {ds : List Declared}
    (hspelled : ∀ d ∈ ds, d.Spelled) (hnew : ∀ d ∈ ds, d.declarator.identifier ∉ declared) :
    ∀ d ∈ ds, Action.rename owner vars d.declarator.identifier = d.declarator.identifier := by
  intro d hd
  rw [h.rename (hspelled d hd).1.identifier, written,
    if_neg fun hmem => hnew d hd (h.settled _ hmem)]

/-- The entries of a declaration. -/
def entriesOf (owner : String) (vars : Variables) (type : VarType) (const : Bool)
    (ds : List Declared) : List (Option String × Variable) :=
  ds.map fun d =>
    (some (owner ++ d.declarator.render (Action.rename owner vars)),
     { type, const, init := d.init.map (·.render (Action.rename owner vars)), scope := .label })

theorem Settles.entries_declare (h : Settles owner declared settled vars) (type : VarType)
    (const : Bool) {ds : List Declared} (hspelled : ∀ d ∈ ds, d.Spelled)
    (hnodup : (ds.map (·.declarator.identifier)).Nodup)
    (hnew : ∀ d ∈ ds, d.declarator.identifier ∉ declared) :
    (declare owner vars type const ds).entries =
      vars.entries ++ entriesOf owner vars type const ds := by
  have hname := h.rename_identifier hspelled hnew
  have hstem : ∀ d ∈ ds, stem (d.declarator.render (Action.rename owner vars)) =
      d.declarator.identifier := fun d hd =>
    Declarator.stem_render (hspelled d hd).1 (hname d hd)
  -- the text of a declarator tells its identifier, so the keys are new and differ
  refine Table.entries_insertAll ?_ ?_
  · rw [List.map_map]
    refine List.Nodup.map_on ?_ (List.Nodup.of_map _ hnodup)
    intro d hd d' hd' heq
    have htext : d.declarator.render (Action.rename owner vars) =
        d'.declarator.render (Action.rename owner vars) := by simpa using heq
    refine List.inj_on_of_nodup_map hnodup hd hd' ?_
    rw [← hstem d hd, ← hstem d' hd', htext]
  · intro e he hmem
    obtain ⟨d, hd, rfl⟩ := List.mem_map.mp he
    obtain ⟨t, ht, hdeclared⟩ := h.stems _ hmem
    have htext : d.declarator.render (Action.rename owner vars) = t := by simpa using ht
    rw [← htext, hstem d hd] at hdeclared
    exact hnew d hd hdeclared

theorem mem_plainNames {ds : List Declared} {w : String} :
    w ∈ plainNames ds ↔ ∃ d ∈ ds, d.declarator.isPlain = true ∧ d.declarator.identifier = w := by
  simp [plainNames, and_assoc]

theorem Settles.declare (h : Settles owner declared settled vars) (type : VarType)
    (const : Bool) {ds : List Declared} (hspelled : ∀ d ∈ ds, d.Spelled)
    (hnew : ∀ d ∈ ds, d.declarator.identifier ∉ declared) :
    Settles owner (declared ++ ds.map (·.declarator.identifier)) (settled ++ plainNames ds)
      (declare owner vars type const ds) := by
  have hname := h.rename_identifier hspelled hnew
  have hkeys : ∀ k, k ∈ (Action.declare owner vars type const ds).keys ↔
      (∃ d ∈ ds, some (owner ++ d.declarator.render (Action.rename owner vars)) = k) ∨
        k ∈ vars.keys := by
    intro k
    rw [Action.declare, Table.mem_keys_insertAll, List.map_map]
    simp
  refine ⟨fun w hw => ?_, fun k hk => ?_, fun w hw => ?_⟩
  · rw [hkeys, h.contains w hw, List.mem_append, mem_plainNames, or_comm]
    refine or_congr_right ⟨?_, ?_⟩
    · -- a key that is a word is that of a plain declarator
      rintro ⟨d, hd, heq⟩
      have htext : d.declarator.render (Action.rename owner vars) = w := by simpa using heq
      have hplain := Declarator.isPlain_of_isWord (hspelled d hd).1 (hname d hd) (htext ▸ hw)
      rw [d.declarator.render_of_isPlain hplain, hname d hd] at htext
      exact ⟨d, hd, hplain, htext⟩
    · rintro ⟨d, hd, hplain, rfl⟩
      exact ⟨d, hd, by rw [d.declarator.render_of_isPlain hplain, hname d hd]⟩
  · rcases (hkeys k).mp hk with ⟨d, hd, rfl⟩ | hk
    · refine ⟨_, rfl, List.mem_append_right _ ?_⟩
      rw [Declarator.stem_render (hspelled d hd).1 (hname d hd)]
      exact List.mem_map_of_mem hd
    · obtain ⟨t, rfl, ht⟩ := h.stems k hk
      exact ⟨t, rfl, List.mem_append_left _ ht⟩
  · rcases List.mem_append.mp hw with hw | hw
    · exact List.mem_append_left _ (h.settled w hw)
    · obtain ⟨d, hd, -, rfl⟩ := mem_plainNames.mp hw
      exact List.mem_append_right _ (List.mem_map_of_mem hd)

/-! ## Texts of sites -/

theorem Settles.render (h : Settles owner declared settled vars) {i : Initializer}
    (hi : i.Worded) :
    i.render (Action.rename owner vars) = i.render (written owner settled) :=
  Initializer.render_congr fun a ha => h.rename (hi a ha)

theorem Settles.map_init (h : Settles owner declared settled vars) (type : VarType) (const : Bool)
    {ds : List Declared} (hspelled : ∀ d ∈ ds, d.Spelled) (before : List String) :
    (entriesOf owner vars type const ds).map (·.2.init) =
      (initSites settled before ds).map (Option.map (Site.output owner)) := by
  induction ds generalizing before with
  | nil => rfl
  | cons d ds ih =>
    obtain ⟨hd, hrest⟩ := List.forall_mem_cons.mp hspelled
    have hinit : d.init.map (·.render (Action.rename owner vars)) =
        (d.init.map (⟨·, before, settled⟩)).map (Site.output owner) := by
      cases hi : d.init with
      | none => rfl
      | some i => exact congrArg some (h.render (hd.2 i (by simp [hi])))
    simp only [entriesOf, initSites, List.map_cons, hinit]
    exact congrArg _ (ih hrest _)

/-- The statements and the initializers of items are the texts of their sites. -/
theorem Settles.elaborate {items : List Item} (hspelled : ∀ i ∈ items, i.Spelled)
    (hnodup : (declaredBy items).Nodup) (hnew : List.Disjoint declared (declaredBy items))
    (h : Settles owner declared settled vars) :
    (elaborate owner vars items).1 =
        (sites declared settled items).1.map (Site.output owner) ∧
      (elaborate owner vars items).2.entries.map (·.2.init) =
        vars.entries.map (·.2.init) ++
          (sites declared settled items).2.map (Option.map (Site.output owner)) := by
  induction items generalizing declared settled vars with
  | nil => simp [Action.elaborate, sites]
  | cons i is ih =>
    obtain ⟨hi, hrest⟩ := List.forall_mem_cons.mp hspelled
    cases i with
    | statement e =>
      obtain ⟨hstatements, hinits⟩ := ih hrest hnodup hnew h
      have htext : e.render (Action.rename owner vars) =
          Site.output owner ⟨.value e, declared, settled⟩ := h.render (i := .value e) hi
      simp only [Action.elaborate, sites, List.map_cons, htext, hstatements, hinits, and_self]
    | declaration type const ds =>
      have hdeclared : declaredBy (.declaration type const ds :: is) =
          ds.map (·.declarator.identifier) ++ declaredBy is := rfl
      rw [hdeclared] at hnodup hnew
      obtain ⟨hfirst, hothers, hapart⟩ := List.nodup_append'.mp hnodup
      obtain ⟨hnew₁, hnew₂⟩ := List.disjoint_append_right.mp hnew
      have hnames : ∀ d ∈ ds, d.declarator.identifier ∉ declared := fun d hd hmem =>
        hnew₁ hmem (List.mem_map_of_mem hd)
      obtain ⟨hstatements, hinits⟩ := ih hrest hothers
        (List.disjoint_append_left.mpr ⟨hnew₂, hapart⟩) (h.declare type const hi hnames)
      refine ⟨hstatements, hinits.trans ?_⟩
      rw [h.entries_declare type const hi hfirst hnames, List.map_append,
        h.map_init type const hi declared, List.append_assoc, ← List.map_append]
      rfl

end

theorem settled_of_mem_initSites {settled : List String} {ds : List Declared}
    {declared : List String} (hsub : ∀ w ∈ settled, w ∈ declared) {s : Site}
    (hs : some s ∈ initSites settled declared ds) : ∀ w ∈ s.settled, w ∈ s.declared := by
  induction ds generalizing declared with
  | nil => cases hs
  | cons d ds ih =>
    rcases List.mem_cons.mp hs with hs | hs
    · obtain ⟨i, -, rfl⟩ := Option.map_eq_some_iff.mp hs.symm
      exact hsub
    · exact ih (fun w hw => List.mem_append_left _ (hsub w hw)) hs

/-- What is settled in front of a site is declared there. -/
theorem settled_of_mem_sites {items : List Item} {declared settled : List String}
    (hsub : ∀ w ∈ settled, w ∈ declared) {s : Site}
    (hs : s ∈ (sites declared settled items).1 ∨ some s ∈ (sites declared settled items).2) :
    ∀ w ∈ s.settled, w ∈ s.declared := by
  induction items generalizing declared settled with
  | nil => simp [sites] at hs
  | cons i is ih =>
    cases i with
    | statement e =>
      simp only [sites, List.mem_cons, or_assoc] at hs
      rcases hs with rfl | hs
      · exact hsub
      · exact ih hsub hs
    | declaration type const ds =>
      simp only [sites, List.mem_append] at hs
      have hafter : ∀ w ∈ settled ++ plainNames ds,
          w ∈ declared ++ (Item.declaration type const ds).identifiers := by
        refine List.forall_mem_append.mpr ⟨fun w hw => List.mem_append_left _ (hsub w hw), ?_⟩
        intro w hw
        obtain ⟨d, hd, -, rfl⟩ := mem_plainNames.mp hw
        exact List.mem_append_right _ (List.mem_map_of_mem hd)
      rcases hs with hs | hs | hs
      · exact ih hafter (.inl hs)
      · exact settled_of_mem_initSites hsub hs
      · exact ih hafter (.inr hs)

/-- Let an action be read that declares no identifier twice, starting without variables. Its
statements and the initializers of its variables have the owner in front of just those operands
that are settled. So they have it in front of all operands that are declared in front of them, and
of no others, just if each such operand was declared by an earlier declaration, without dimensions
and parentheses. -/
theorem uses_renamed_iff {line : Nat} {text owner : String} {items : List Item}
    (howner : owner ≠ "") (hread : (read line text).1 = .ok items)
    (hdistinct : (declaredBy items).Nodup) :
    ∃ ss vars, (parse line text owner .empty).1 = .ok (ss, vars) ∧
      ss = (sites [] [] items).1.map (Site.output owner) ∧
      vars.entries.map (·.2.init) = (sites [] [] items).2.map (Option.map (Site.output owner)) ∧
      ((ss = (sites [] [] items).1.map (Site.due owner) ∧
          vars.entries.map (·.2.init) = (sites [] [] items).2.map (Option.map (Site.due owner))) ↔
        ∀ s ∈ allSites items, s.Covered) := by
  obtain ⟨hstatements, hinits⟩ := (settles_empty owner).elaborate (read_spelled hread) hdistinct
    (List.disjoint_nil_left _)
  have hinits : (elaborate owner .empty items).2.entries.map (·.2.init) =
      (sites [] [] items).2.map (Option.map (Site.output owner)) := hinits
  have hcovered {s : Site} (hs : s ∈ (sites [] [] items).1 ∨ some s ∈ (sites [] [] items).2) :
      s.output owner = s.due owner ↔ s.Covered :=
    Site.output_eq_due_iff howner (settled_of_mem_sites (by simp) hs)
  refine ⟨_, _, parse_eq_ok.mpr ⟨items, hread, rfl⟩, hstatements, hinits, ?_⟩
  rw [hstatements, hinits, List.map_inj_left, List.map_inj_left, allSites, List.forall_mem_append]
  refine and_congr (forall₂_congr fun s hs => hcovered (.inl hs))
    ⟨fun h s hs => ?_, fun h s? hs => ?_⟩
  · have hs := List.reduceOption_mem_iff.mp hs
    exact (hcovered (.inr hs)).mp (Option.some.inj (h (some s) hs))
  · cases s? with
    | none => rfl
    | some s =>
      exact congrArg some ((hcovered (.inr hs)).mpr (h s (List.reduceOption_mem_iff.mpr hs)))

/-- An array is declared and not used, and the other variables are used behind their
declarations. -/
theorem uses_renamed_iff_tally :
    ∃ items, (read 1 "int a = 1, b[2]; bool c = a\n\x7b x = c + a; a++; \x7d").1 = .ok items ∧
      (parse 1 "int a = 1, b[2]; bool c = a\n\x7b x = c + a; a++; \x7d" "state_1_" .empty).1 =
        .ok (["x = state_1_c + state_1_a", "state_1_a = state_1_a + 1"],
          ⟨[(some "state_1_a", ⟨.int, false, some "1", .label⟩),
            (some "state_1_b[2]", ⟨.int, false, none, .label⟩),
            (some "state_1_c", ⟨.byte, false, some "state_1_a", .label⟩)]⟩) ∧
      ["x = state_1_c + state_1_a", "state_1_a = state_1_a + 1"] =
        (sites [] [] items).1.map (Site.due "state_1_") ∧
      [some "1", none, some "state_1_a"] =
        (sites [] [] items).2.map (Option.map (Site.due "state_1_")) := by
  have hitems : (read 1 "int a = 1, b[2]; bool c = a\n\x7b x = c + a; a++; \x7d").1.map
      (fun is => decide (declaredBy is).Nodup && decide (∀ s ∈ allSites is, s.Covered)) =
      .ok true := by
    decide +kernel
  have hparsed : (parse 1 "int a = 1, b[2]; bool c = a\n\x7b x = c + a; a++; \x7d" "state_1_"
      .empty).1 =
      .ok (["x = state_1_c + state_1_a", "state_1_a = state_1_a + 1"],
        ⟨[(some "state_1_a", ⟨.int, false, some "1", .label⟩),
          (some "state_1_b[2]", ⟨.int, false, none, .label⟩),
          (some "state_1_c", ⟨.byte, false, some "state_1_a", .label⟩)]⟩) := by
    decide +kernel
  cases hread : (read 1 "int a = 1, b[2]; bool c = a\n\x7b x = c + a; a++; \x7d").1 with
  | error f =>
    rw [hread] at hitems
    cases hitems
  | ok items =>
    rw [hread] at hitems
    have hgood : (declaredBy items).Nodup ∧ ∀ s ∈ allSites items, s.Covered := by
      simpa using Except.ok.inj hitems
    have howner : "state_1_" ≠ "" := by decide
    obtain ⟨ss, vars, hparse, -, -, hiff⟩ := uses_renamed_iff howner hread hgood.1
    cases hparsed.symm.trans hparse
    obtain ⟨hstatements, hinits⟩ := hiff.mpr hgood.2
    exact ⟨items, rfl, hparsed, hstatements, hinits⟩

/-- Uses of an array, and of a variable in the declaration that declares it, are written without
the owner. -/
theorem uses_left_bare :
    (parse 1 "int a[2]; a[0] = 1;" "state_1_" .empty).1 =
        .ok (["a[0] = 1"], ⟨[(some "state_1_a[2]", ⟨.int, false, none, .label⟩)]⟩) ∧
      (read 1 "int a[2]; a[0] = 1;").1.map
          (fun is => (sites [] [] is).1.map (Site.due "state_1_")) =
        .ok ["state_1_a[0] = 1"] ∧
      (parse 1 "int a = 1, b = a;" "state_1_" .empty).1 =
        .ok ([], ⟨[(some "state_1_a", ⟨.int, false, some "1", .label⟩),
          (some "state_1_b", ⟨.int, false, some "a", .label⟩)]⟩) ∧
      (read 1 "int a = 1, b = a;").1.map
          (fun is => (sites [] [] is).2.map (Option.map (Site.due "state_1_"))) =
        .ok [some "1", some "state_1_a"] := by
  decide +kernel

end Action

end Statechart
