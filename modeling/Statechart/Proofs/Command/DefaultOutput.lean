import Mathlib.Data.List.Infix
import Statechart.Command.Run
import Statechart.Proofs.Table
import Statechart.Proofs.Text.Places

/-!
Where the output goes if the command line names none. The name of the input is cut at its last dot,
wherever that is, so the output is beside the input and has its name with another suffix just if the
dot is one of a suffix (`default_output_beside_iff`). An input that has the suffix of an output
already is lost.
-/

namespace Statechart.Command

/-! ## Names with a suffix -/

theorem exists_last {c : Char} {cs : List Char} (h : c ∈ cs) :
    ∃ front back, cs = front ++ c :: back ∧ c ∉ back := by
  obtain ⟨as, bs, hcs, has⟩ := List.eq_append_cons_of_mem (List.mem_reverse.mpr h)
  refine ⟨bs.reverse, as.reverse, ?_, by simpa using has⟩
  have hreverse := congrArg List.reverse hcs
  simpa using hreverse

/-- A name up to its last suffix. Dots at the front of a name start no suffix. -/
def stem (base : List Char) : List Char :=
  let front := (base.rdropWhile (· != '.')).dropLast
  if front.all (· == '.') then base else front

theorem stem_of_not_mem {base : List Char} (h : '.' ∉ base) : stem base = base := by
  have hnil : base.rdropWhile (· != '.') = [] := by
    rw [List.rdropWhile_eq_nil_iff]
    intro c hc
    rw [bne_iff_ne]
    rintro rfl
    exact h hc
  rw [stem, hnil]
  rfl

theorem stem_append {ext : List Char} (h : '.' ∉ ext) (front : List Char) :
    stem (front ++ '.' :: ext) =
      if front.all (· == '.') then front ++ '.' :: ext else front := by
  have hext : ∀ c ∈ ext.reverse, (c != '.') = true := by
    intro c hc
    rw [bne_iff_ne]
    rintro rfl
    exact h (List.mem_reverse.mp hc)
  have hfront : (front ++ '.' :: ext).rdropWhile (· != '.') = front ++ ['.'] := by
    rw [List.rdropWhile, List.reverse_append, List.reverse_cons, List.append_assoc,
      List.dropWhile_append_of_pos hext]
    simp
  rw [stem, hfront, List.dropLast_concat]

theorem toList_suffix : ".dve".toList = ['.', 'd', 'v', 'e'] := by decide +kernel

theorem beforeLast?_of_not_mem {cs : List Char} (h : '.' ∉ cs) :
    Text.beforeLast? ['.'] cs = none :=
  Text.beforeLast?_eq_none.mpr (mt (List.singleton_infix_iff _ _).mp h)

theorem beforeLast?_dot {ext : List Char} (h : '.' ∉ ext) (front : List Char) :
    Text.beforeLast? ['.'] (front ++ '.' :: ext) = some front := by
  have hdot : Text.beforeLast? ['.'] ('.' :: ext) = some [] := by
    rw [Text.beforeLast?, beforeLast?_of_not_mem h]
    rfl
  rw [Text.beforeLast?_append hdot, List.append_nil]

theorem toList_defaultOutput (name : String) : (defaultOutput name).toList =
    (Text.beforeLast? ['.'] name.toList).getD name.toList ++ ".dve".toList := by
  rw [defaultOutput, String.toList_append, String.toList_ofList]

theorem suffix_iff {ext : List Char} (h : '.' ∉ ext) (front : List Char) :
    ".dve".toList <:+ front ++ '.' :: ext ↔ '.' :: ext = ".dve".toList := by
  constructor
  · rintro ⟨t, ht⟩
    -- both cut the name at its last dot
    have hplain : '.' ∉ ['d', 'v', 'e'] := by decide
    have hcut := beforeLast?_dot hplain t
    rw [toList_suffix] at ht
    rw [ht, beforeLast?_dot h] at hcut
    cases hcut
    rw [toList_suffix]
    exact (List.append_cancel_left ht).symm
  · intro hext
    rw [hext]
    exact List.suffix_append front _

/-! ## Where names lead -/

namespace Files

/-- The names between the slashes. -/
def steps (cs : List Char) : List String := (cs.splitOn '/').map String.ofList

/-- The front of a name, up to a slash. -/
def IsFront (front : List Char) : Prop := front = [] ∨ ∃ f, front = f ++ ['/']

theorem exists_base (cs : List Char) : ∃ front base, cs = front ++ base ∧ IsFront front ∧
    '/' ∉ base := by
  by_cases h : '/' ∈ cs
  · obtain ⟨f, base, rfl, hbase⟩ := exists_last h
    exact ⟨f ++ ['/'], base, by simp, .inr ⟨f, rfl⟩, hbase⟩
  · exact ⟨[], cs, rfl, .inl rfl, h⟩

theorem origin_eq (name : String) : origin name =
    (if name.toList.head? = some '/' then ["/"] else [], steps name.toList) := by
  unfold origin
  split
  · next cs heq => simp [heq, steps]
  · next hne =>
    have hhead : name.toList.head? ≠ some '/' := by
      intro hhead
      obtain ⟨cs, hcs⟩ := List.head?_eq_some_iff.mp hhead
      exact hne cs hcs
    rw [if_neg hhead]
    rfl

theorem origin_fst (name : String) : (origin name).1 = [] ∨ (origin name).1 = ["/"] := by
  rw [origin_eq]
  split
  · exact .inr rfl
  · exact .inl rfl

theorem steps_slash (f cs : List Char) : steps (f ++ '/' :: cs) = steps f ++ steps cs := by
  rw [steps, List.splitOn_append_cons_self, List.map_append]
  rfl

/-- Where a name with a slash starts does not depend on what is behind the slash. -/
theorem pathOf_slash (f cs : List Char) : pathOf (String.ofList (f ++ ['/'])) =
    (steps f).foldl enter (origin (String.ofList (f ++ '/' :: cs))).1 := by
  have hhead : (f ++ '/' :: cs).head? = (f ++ ['/']).head? := by cases f <;> rfl
  rw [pathOf, origin_eq, origin_eq, String.toList_ofList, String.toList_ofList, hhead]
  simp only [steps_slash, List.foldl_append]
  rfl

/-- From a front on, the way is that of the rest of the name. -/
theorem pathOf_append {front : List Char} (hfront : IsFront front) {cs : List Char}
    (hcs : front = [] → cs.head? ≠ some '/') :
    pathOf (String.ofList (front ++ cs)) =
      (steps cs).foldl enter (pathOf (String.ofList front)) := by
  rcases hfront with rfl | ⟨f, rfl⟩
  · rw [pathOf, origin_eq, List.nil_append, String.toList_ofList, if_neg (hcs rfl)]
    rfl
  · rw [pathOf_slash f cs, ← List.foldl_append, ← steps_slash, List.append_assoc,
      List.singleton_append, pathOf]
    simp only [origin_eq, String.toList_ofList]

/-- Names that lead on from a directory. -/
def IsName (name : String) : Prop := name ≠ "" ∧ name ≠ "." ∧ name ≠ ".."

theorem enter_name {name : String} (h : IsName name) (p : Path) : enter p name = p ++ [name] := by
  unfold enter
  split
  · exact absurd rfl h.1
  · exact absurd rfl h.2.1
  · exact absurd rfl h.2.2
  · rfl

theorem isDirectory_iff {fs : Files} {p : Path} : fs.isDirectory p = true ↔
    (∀ n ∈ p, n = "..") ∨ p = ["/"] ∨ (fs.get? p == some .directory) = true ∨
      ∃ q ∈ fs.keys, p <+: q ∧ p ≠ q := by
  simp [isDirectory, or_assoc]

/-- What lies above a directory is one. -/
theorem isDirectory_dropLast {fs : Files} {p : Path} (h : fs.isDirectory p = true)
    (hne : p ≠ []) : fs.isDirectory p.dropLast = true := by
  have habove (q : Path) (hq : q ∈ fs.keys) (hbelow : p <+: q) :
      fs.isDirectory p.dropLast = true := by
    refine isDirectory_iff.mpr (.inr (.inr (.inr ⟨q, hq, p.dropLast_prefix.trans hbelow, ?_⟩)))
    rintro rfl
    have hle := hbelow.length_le
    have hpos := List.length_pos_of_ne_nil hne
    rw [List.length_dropLast] at hle
    omega
  rcases isDirectory_iff.mp h with hall | rfl | hentry | ⟨q, hq, hbelow, -⟩
  · exact isDirectory_iff.mpr (.inl fun n hn => hall n (List.dropLast_subset p hn))
  · rfl
  · cases hget : fs.get? p with
    | none =>
      rw [hget] at hentry
      cases hentry
    | some e => exact habove p (Table.mem_keys_of_get? hget) (List.prefix_refl p)
  · exact habove q hq hbelow

/-- The steps up come before all others. -/
def UpFirst (p : Path) : Prop := ∃ k names, p = List.replicate k ".." ++ names ∧ ".." ∉ names

theorem upFirst_enter {p : Path} (h : UpFirst p) (name : String) : UpFirst (enter p name) := by
  obtain ⟨k, names, rfl, hnames⟩ := h
  unfold enter
  split
  · exact ⟨k, names, rfl, hnames⟩
  · exact ⟨k, names, rfl, hnames⟩
  · cases names using List.reverseRecOn with
    | nil =>
      have hup : (List.replicate k "..").getLast?.getD ".." = ".." := by
        cases k with
        | zero => rfl
        | succ k => rw [List.replicate_succ', List.getLast?_concat, Option.getD_some]
      rw [List.append_nil, hup, if_pos (beq_self_eq_true _)]
      exact ⟨k + 1, [], by rw [List.replicate_succ', List.append_nil], List.not_mem_nil⟩
    | append_singleton names n =>
      have hn : n ≠ ".." := fun hn => hnames (by simp [hn])
      rw [← List.append_assoc, List.getLast?_concat, Option.getD_some, if_neg (by simpa using hn),
        List.dropLast_concat]
      exact ⟨k, names, rfl, fun hmem => hnames (List.mem_append_left _ hmem)⟩
  · next hup =>
    refine ⟨k, names ++ [name], by simp, ?_⟩
    rw [List.mem_append, not_or]
    exact ⟨hnames, by simpa using Ne.symm hup⟩

/-- A name that does not lead on leads from a directory to one. -/
theorem isDirectory_enter {fs : Files} {p : Path} (h : fs.isDirectory p = true) (hp : UpFirst p)
    {name : String} (hname : ¬ IsName name) : fs.isDirectory (enter p name) = true := by
  unfold enter
  split
  · exact h
  · exact h
  · split
    · next hlast =>
      obtain ⟨k, names, rfl, hnames⟩ := hp
      cases names using List.reverseRecOn with
      | nil =>
        refine isDirectory_iff.mpr (.inl fun n hn => ?_)
        simp only [List.append_nil, List.mem_append, List.mem_replicate, List.mem_singleton] at hn
        rcases hn with hn | hn
        · exact hn.2
        · exact hn
      | append_singleton names n =>
        simp at hlast
        simp [hlast] at hnames
    · next hlast =>
      refine isDirectory_dropLast h ?_
      rintro rfl
      exact hlast rfl
  · next h1 h2 h3 => exact absurd ⟨h1, h2, h3⟩ hname

theorem follow_eq {fs : Files} {p q : Path} {names : List String}
    (h : fs.follow p names = .ok q) : q = names.foldl enter p := by
  induction names generalizing p with
  | nil =>
    cases h
    rfl
  | cons name names ih =>
    simp only [follow] at h
    split at h
    · exact ih h
    · split at h <;> cases h

/-- All names but the last lead to directories. -/
theorem isDirectory_follow {fs : Files} {p q : Path} {names : List String} {last : String}
    (hp : fs.isDirectory p = true) (h : fs.follow p (names ++ [last]) = .ok q) :
    fs.isDirectory (names.foldl enter p) = true := by
  induction names generalizing p with
  | nil => exact hp
  | cons name names ih =>
    simp only [List.cons_append, follow] at h
    split at h
    · next hdirectory => exact ih (by simpa using hdirectory) h
    · split at h <;> cases h

theorem upFirst_pathOf (name : String) : UpFirst (pathOf name) := by
  have hstart : UpFirst (origin name).1 := by
    rcases origin_fst name with h | h <;> exact ⟨0, _, h, by decide⟩
  have hfold (names : List String) {p : Path} (hp : UpFirst p) :
      UpFirst (names.foldl enter p) := by
    induction names generalizing p with
    | nil => exact hp
    | cons name names ih => exact ih (upFirst_enter hp name)
  exact hfold _ hstart

/-- Where a name leads, by the directory that its front leads to. -/
theorem resolve_base {fs : Files} {name : String} {path : Path} {front base : List Char}
    (hname : name.toList = front ++ base) (hfront : IsFront front) (hbase : '/' ∉ base)
    (h : fs.resolve name = .ok path) :
    fs.isDirectory (pathOf (String.ofList front)) = true ∧
      path = enter (pathOf (String.ofList front)) (String.ofList base) := by
  have hhead : base.head? ≠ some '/' := fun hhead => hbase (List.mem_of_mem_head? hhead)
  have hsteps : steps base = [String.ofList base] := by
    rw [steps, List.splitOn_eq_singleton hbase]
    rfl
  rw [resolve] at h
  split at h
  · cases h
  · have h : fs.follow (origin name).1 (origin name).2 = .ok path := h
    have hpath : path = pathOf name := follow_eq h
    have hwhole : name = String.ofList (front ++ base) := by rw [← hname, String.ofList_toList]
    refine ⟨?_, ?_⟩
    · rcases hfront with rfl | ⟨f, rfl⟩
      · rfl
      · rw [List.append_assoc, List.singleton_append] at hname hwhole
        rw [pathOf_slash f base, ← hwhole]
        have hstart : fs.isDirectory (origin name).1 = true := by
          rcases origin_fst name with h | h <;> rw [h] <;> rfl
        have hnames : (origin name).2 = steps f ++ [String.ofList base] := by
          rw [origin_eq, hname, steps_slash, hsteps]
        rw [hnames] at h
        exact isDirectory_follow hstart h
    · rw [hpath, hwhole, pathOf_append hfront fun _ => hhead, hsteps]
      rfl

/-- A file that is read has a name in a directory. -/
theorem openToRead_base {fs : Files} {name : String} {path : Path} {front base : List Char}
    (hname : name.toList = front ++ base) (hfront : IsFront front) (hbase : '/' ∉ base)
    (h : fs.openToRead name = .ok path) :
    IsName (String.ofList base) ∧ path = pathOf (String.ofList front) ++ [String.ofList base] := by
  rw [openToRead] at h
  cases hresolve : fs.resolve name with
  | error f =>
    rw [hresolve] at h
    cases h
  | ok p =>
    obtain ⟨hdirectory, rfl⟩ := resolve_base hname hfront hbase hresolve
    have hbase : IsName (String.ofList base) := by
      by_contra hno
      have hto := isDirectory_enter hdirectory (upFirst_pathOf _) hno
      rw [hresolve] at h
      simp only [bind, Except.bind, hto, if_pos] at h
      cases h
    rw [hresolve] at h
    simp only [bind, Except.bind] at h
    split at h
    · cases h
    · split at h
      · cases h
        exact ⟨hbase, enter_name hbase _⟩
      · cases h

theorem openToWrite_eq {fs fs' : Files} {name : String} {path : Path}
    (h : fs.openToWrite name = .ok (path, fs')) :
    fs.resolve name = .ok path ∧ fs' = fs.insert path (.file (.bytes ByteArray.empty)) := by
  rw [openToWrite] at h
  cases hresolve : fs.resolve name with
  | error f =>
    rw [hresolve] at h
    cases h
  | ok p =>
    rw [hresolve] at h
    simp only [bind, Except.bind] at h
    split at h
    · cases h
    · cases h
      exact ⟨rfl, rfl⟩

/-! ## Ways without dots -/

theorem mem_of_mem_splitOn {a c : Char} {cs w : List Char} (hw : w ∈ cs.splitOn a) (hc : c ∈ w) :
    c ∈ cs := by
  induction cs generalizing w with
  | nil =>
    rw [List.splitOn_nil, List.mem_singleton] at hw
    rw [hw] at hc
    cases hc
  | cons d cs ih =>
    rw [List.splitOn_cons_eq_if_modifyHead] at hw
    split at hw
    · rcases List.mem_cons.mp hw with rfl | hw
      · cases hc
      · exact List.mem_cons_of_mem d (ih hw hc)
    · cases hsplit : cs.splitOn a with
      | nil => exact absurd hsplit (List.splitOn_ne_nil a cs)
      | cons v vs =>
        rw [hsplit, List.modifyHead_cons] at hw
        rw [hsplit] at ih
        rcases List.mem_cons.mp hw with rfl | hw
        · rcases List.mem_cons.mp hc with rfl | hc
          · exact List.mem_cons_self ..
          · exact List.mem_cons_of_mem d (ih (List.mem_cons_self ..) hc)
        · exact List.mem_cons_of_mem d (ih (List.mem_cons_of_mem v hw) hc)

/-- Only a step up makes a path shorter. -/
theorem length_le_enter {name : String} (h : name ≠ "..") (p : Path) :
    p.length ≤ (enter p name).length := by
  unfold enter
  split
  · exact Nat.le_refl _
  · exact Nat.le_refl _
  · exact absurd rfl h
  · rw [List.length_append]
    exact Nat.le_add_right ..

theorem length_le_steps {cs : List Char} (h : '.' ∉ cs) (p : Path) :
    p.length ≤ ((steps cs).foldl enter p).length := by
  have hup : ∀ name ∈ steps cs, name ≠ ".." := by
    rintro name hname rfl
    obtain ⟨w, hw, htext⟩ := List.mem_map.mp hname
    have hdots : w = ['.', '.'] := by
      rw [← String.toList_ofList (l := w), htext]
      decide +kernel
    exact h (mem_of_mem_splitOn hw (by simp [hdots]))
  generalize steps cs = names at hup ⊢
  induction names generalizing p with
  | nil => exact Nat.le_refl _
  | cons name names ih =>
    rw [List.forall_mem_cons] at hup
    exact (length_le_enter hup.1 p).trans (ih (enter p name) hup.2)

end Files

/-! ## Default outputs -/

theorem stem_eq_iff {ext : List Char} (h : '.' ∉ ext) (s : List Char) :
    s = stem (s ++ '.' :: ext) ↔ '.' ∈ (s ++ '.' :: ext).dropWhile (· == '.') := by
  rw [stem_append h, List.dropWhile_append]
  by_cases hs : s.all (· == '.') = true
  · have hnil : s.dropWhile (· == '.') = [] := by
      rw [List.dropWhile_eq_nil_iff]
      exact List.all_eq_true.mp hs
    have hext : '.' ∉ ext.dropWhile (· == '.') := fun hmem =>
      h ((List.dropWhile_sublist _).subset hmem)
    rw [if_pos hs, hnil]
    simpa using hext
  · have hne : s.dropWhile (· == '.') ≠ [] := by
      rw [Ne, List.dropWhile_eq_nil_iff]
      exact mt List.all_eq_true.mpr hs
    rw [if_neg hs, if_neg (by simpa using hne)]
    simp

/-- Where an output leads, by the directory that the front of its name leads to. -/
theorem openToWrite_base {fs fs' : Files} {name : String} {out : Path} {front s : List Char}
    (hname : name.toList = front ++ (s ++ ".dve".toList)) (hfront : Files.IsFront front)
    (hslash : '/' ∉ s) (h : fs.openToWrite name = .ok (out, fs')) :
    out = Files.pathOf (String.ofList front) ++ [String.ofList (s ++ ".dve".toList)] := by
  have hbase : '/' ∉ s ++ ".dve".toList := by
    rw [toList_suffix]
    simpa using hslash
  have hproper : Files.IsName (String.ofList (s ++ ".dve".toList)) := by
    have hlong {short : String} (hshort : short.toList.length < 4) :
        String.ofList (s ++ ".dve".toList) ≠ short := by
      rintro rfl
      rw [toList_suffix, String.toList_ofList, List.length_append] at hshort
      exact absurd hshort (Nat.not_lt.mpr (Nat.le_add_left 4 s.length))
    exact ⟨hlong (by decide +kernel), hlong (by decide +kernel), hlong (by decide +kernel)⟩
  obtain ⟨-, hout⟩ := Files.resolve_base hname hfront hbase (Files.openToWrite_eq h).1
  rw [hout, Files.enter_name hproper]

theorem isName_of_dot {c : List Char} (hdot : '.' ∉ c) (hne : c ≠ []) (e : List Char) :
    Files.IsName (String.ofList (c ++ '.' :: e)) := by
  obtain ⟨x, c, rfl⟩ := List.exists_cons_of_ne_nil hne
  have hfirst {name : String} (h : name.toList.head?.all (· == '.') = true) :
      String.ofList ((x :: c) ++ '.' :: e) ≠ name := by
    rintro rfl
    rw [String.toList_ofList] at h
    exact hdot (beq_iff_eq.mp h ▸ List.mem_cons_self ..)
  exact ⟨hfirst (by decide +kernel), hfirst (by decide +kernel), hfirst (by decide +kernel)⟩

/-- A directory with a dot in its name is below the one that the name is cut to. -/
theorem pathOf_ne {g c e t : List Char} (hg : Files.IsFront g) (hc : '/' ∉ c) (hdot : '.' ∉ c)
    (hne : c ≠ []) (he : '/' ∉ e) (ht : '.' ∉ t) :
    Files.pathOf (String.ofList g) ≠
      Files.pathOf (String.ofList ((g ++ (c ++ '.' :: e)) ++ ['/'] ++ t)) := by
  have hstep : '/' ∉ c ++ '.' :: e := by simp [hc, he]
  have hhead : ((c ++ '.' :: e) ++ ['/']).head? ≠ some '/' := by
    obtain ⟨x, c, rfl⟩ := List.exists_cons_of_ne_nil hne
    intro hx
    exact hc (Option.some.inj hx ▸ List.mem_cons_self ..)
  have hbelow : Files.pathOf (String.ofList ((g ++ (c ++ '.' :: e)) ++ ['/'])) =
      Files.pathOf (String.ofList g) ++ [String.ofList (c ++ '.' :: e)] := by
    rw [List.append_assoc, Files.pathOf_append hg fun _ => hhead, Files.steps_slash, Files.steps,
      List.splitOn_eq_singleton hstep, ← Files.enter_name (isName_of_dot hdot hne e)]
    rfl
  rw [Files.pathOf_append (.inr ⟨_, rfl⟩) (fun h => absurd h (by simp)), hbelow]
  intro hsame
  have hlength := Files.length_le_steps ht
    (Files.pathOf (String.ofList g) ++ [String.ofList (c ++ '.' :: e)])
  rw [← hsame, List.length_append] at hlength
  exact absurd hlength (Nat.not_le.mpr (Nat.lt_succ_self _))

/-- Where the output is, and what it is called. -/
theorem defaultOutput_placed {fs fs' : Files} {name : String} {path out : Path}
    (hin : fs.openToRead name = .ok path)
    (hout : fs.openToWrite (defaultOutput name) = .ok (out, fs')) :
    ∃ (dir : Path) (base : String) (dir' : Path) (base' : String),
      path = dir ++ [base] ∧ out = dir' ++ [base'] ∧
      (dir' = dir ∧ base'.toList = stem base.toList ++ ".dve".toList ↔
        ('.' ∈ name.toList → '.' ∈ base.toList.dropWhile (· == '.'))) ∧
      (out = path ↔ ".dve".toList <:+ base.toList) := by
  obtain ⟨front, base, hname, hfront, hslash⟩ := Files.exists_base name.toList
  obtain ⟨hbase, hpath⟩ := Files.openToRead_base hname hfront hslash hin
  have houtput := toList_defaultOutput name
  by_cases hdot : '.' ∈ base
  · obtain ⟨s, ext, rfl, hext⟩ := exists_last hdot
    have hs : '/' ∉ s := fun hmem => hslash (List.mem_append_left _ hmem)
    rw [hname, ← List.append_assoc, beforeLast?_dot hext, Option.getD_some,
      List.append_assoc] at houtput
    have hout := openToWrite_base houtput hfront hs hout
    refine ⟨_, _, _, _, hpath, hout, ?_, ?_⟩
    · have hmem : '.' ∈ name.toList := by rw [hname]; simp
      simp only [String.toList_ofList, true_and, List.append_left_inj, hmem, forall_const]
      exact stem_eq_iff hext s
    · rw [hpath, hout, String.toList_ofList (l := s ++ '.' :: ext), suffix_iff hext]
      constructor
      · intro hsame
        have hlast := String.ofList_inj.mp (List.cons.inj (List.append_cancel_left hsame)).1
        exact (List.append_cancel_left hlast).symm
      · intro hsame
        rw [hsame]
  · -- the output has a dot in its name, and the input has none
    have hplain : ¬ ".dve".toList <:+ base := by
      intro h
      exact hdot (h.subset (by rw [toList_suffix]; simp))
    have hother {g c : List Char}
        (hout : out = Files.pathOf (String.ofList g) ++ [String.ofList (c ++ ".dve".toList)]) :
        out = path ↔ ".dve".toList <:+ (String.ofList base).toList := by
      rw [String.toList_ofList (l := base)]
      refine iff_of_false (fun hsame => hplain ?_) hplain
      rw [hout, hpath] at hsame
      exact ⟨c, String.ofList_inj.mp (List.cons.inj (List.append_inj' hsame rfl).2).1⟩
    by_cases hway : '.' ∈ front
    · obtain ⟨cut, r, rfl, hr⟩ := exists_last hway
      have hrest : '/' ∈ r := by
        rcases hfront with hnil | ⟨f, hf⟩
        · simp at hnil
        · have hlast := congrArg List.getLast? hf
          rw [List.getLast?_append_of_ne_nil _ (List.cons_ne_nil '.' r),
            List.getLast?_concat] at hlast
          simpa using List.mem_of_getLast? hlast
      obtain ⟨e, t, rfl, he⟩ := List.eq_append_cons_of_mem hrest
      obtain ⟨g, c, rfl, hg, hc⟩ := Files.exists_base cut
      have hbehind : '.' ∉ (e ++ '/' :: t) ++ base := by
        rw [List.mem_append, not_or]
        exact ⟨hr, hdot⟩
      rw [hname, List.append_assoc, List.cons_append, beforeLast?_dot hbehind, Option.getD_some,
        List.append_assoc] at houtput
      have hout := openToWrite_base houtput hg hc hout
      refine ⟨_, _, _, _, hpath, hout, iff_of_false ?_ ?_, hother hout⟩
      · -- the name would be that of a directory on the way, cut at its dot
        rintro ⟨hdir, hsame⟩
        simp only [String.toList_ofList, stem_of_not_mem hdot, List.append_left_inj] at hsame
        subst hsame
        have hne : c ≠ [] := by
          rintro rfl
          exact hbase.1 rfl
        have ht : '.' ∉ t := fun hmem => hr (by simp [hmem])
        refine pathOf_ne hg hc hdot hne he ht (hdir.trans (congrArg Files.pathOf ?_))
        simp
      · intro h
        have hmem : '.' ∈ name.toList := by
          rw [hname]
          simp
        rw [String.toList_ofList] at h
        exact hdot ((List.dropWhile_sublist _).subset (h hmem))
    · have hnone : '.' ∉ name.toList := by
        rw [hname, List.mem_append, not_or]
        exact ⟨hway, hdot⟩
      rw [beforeLast?_of_not_mem hnone, hname, Option.getD_none, List.append_assoc] at houtput
      have hout := openToWrite_base houtput hfront hslash hout
      refine ⟨_, _, _, _, hpath, hout, ?_, hother hout⟩
      simp only [String.toList_ofList, stem_of_not_mem hdot, hnone, false_implies, and_self]

/-! ## Arguments without an output -/

/-- Without an output no file has changed, and the input is one of the files. -/
def Progress.Untouched (files : Files) (p : Progress) : Prop :=
  p.settings.output = none → p.files = files ∧
    ∀ name path, p.settings.input = some ⟨name, .file path⟩ → files.openToRead name = .ok path

/-- However the taking ends, what has been true of the progress still is. -/
def Keeps (files : Files) {α : Type} (x : Taking α) : Prop :=
  ∀ p, p.Untouched files → (x.run.run p).2.Untouched files

namespace Keeps

variable {files : Files} {α β : Type}

theorem pure (a : α) : Keeps files (Pure.pure a : Taking α) := fun _ hp => hp

theorem throw (e : Exit) : Keeps files (MonadExcept.throw e : Taking α) := fun _ hp => hp

theorem bind {x : Taking α} {f : α → Taking β} (hx : Keeps files x)
    (hf : ∀ a, Keeps files (f a)) : Keeps files (x >>= f) := by
  intro p hp
  have hmid := hx p hp
  rw [ExceptT.run_bind, StateT.run_bind]
  generalize x.run.run p = r at hmid ⊢
  obtain ⟨e | a, p'⟩ := r
  · exact hmid
  · exact hf a p' hmid

/-- Looking at the progress. -/
theorem get_bind {f : Progress → Taking β}
    (hf : ∀ p, p.Untouched files → ((f p).run.run p).2.Untouched files) :
    Keeps files (get >>= f) := fun p hp => hf p hp

theorem forM (xs : List α) {f : α → Taking Unit} (hf : ∀ a, Keeps files (f a)) :
    Keeps files (xs.forM f) := by
  induction xs with
  | nil => exact .pure ()
  | cons a xs ih => exact (hf a).bind fun _ => ih

theorem option_forM (x : Option α) {f : α → Taking Unit} (hf : ∀ a, Keeps files (f a)) :
    Keeps files (x.forM f) := by
  cases x with
  | none => exact .pure ()
  | some a => exact hf a

end Keeps

/-- Settings other than input and output. -/
theorem keeps_modifySettings {files : Files} {f : Settings → Settings}
    (hinput : ∀ s, (f s).input = s.input) (houtput : ∀ s, (f s).output = s.output) :
    Keeps files (modifySettings f) := by
  intro p hp hnone
  have hnone : (f p.settings).output = none := hnone
  rw [houtput] at hnone
  obtain ⟨hfiles, hread⟩ := hp hnone
  refine ⟨hfiles, fun name path hin => hread name path ?_⟩
  have hin : (f p.settings).input = some ⟨name, .file path⟩ := hin
  rwa [hinput] at hin

theorem keeps_leave (files : Files) : Keeps files leave := fun _ hp => hp

theorem keeps_setFlag (files : Files) (setting : Flag × Option String) :
    Keeps files (setFlag setting) := by
  obtain ⟨flag, value⟩ := setting
  cases flag with
  | help => exact .throw _
  | names =>
    unfold setFlag
    dsimp only
    split
    · exact keeps_modifySettings (fun _ => rfl) fun _ => rfl
    · exact .throw _
  | feed | interval | alternate => exact keeps_modifySettings (fun _ => rfl) fun _ => rfl

theorem keeps_takeInput (files : Files) (name : String) : Keeps files (takeInput name) := by
  unfold takeInput
  split
  · intro p hp hnone
    obtain ⟨hfiles, -⟩ := hp hnone
    exact ⟨hfiles, fun _ _ h => by cases h⟩
  · refine .get_bind fun p hp => ?_
    split
    · exact hp
    · next path hopen =>
      intro hnone
      obtain ⟨hfiles, -⟩ := hp hnone
      refine ⟨hfiles, fun name' path' h => ?_⟩
      cases h
      rw [← hfiles]
      exact hopen

theorem keeps_takeOutput (files : Files) (name : String) : Keeps files (takeOutput name) := by
  unfold takeOutput
  split
  · intro p hp hnone
    cases hnone
  · refine .get_bind fun p hp => ?_
    split
    · exact hp
    · intro hnone
      cases hnone

/-- All arguments, by what each of them keeps. -/
theorem keeps_take (files : Files) (skip : Nat) (args : List Argument) :
    Keeps files (take skip args) := by
  induction args generalizing skip with
  | nil => exact .pure ()
  | cons a rest ih =>
    cases skip with
    | succ k => exact ih k
    | zero =>
      unfold take
      dsimp only
      split
      · exact (keeps_leave files).bind fun _ => ih 0
      · split
        · exact .throw _
        · next r hrequest =>
          have hsettings := Keeps.forM r.settings (keeps_setFlag files)
          split
          · split
            · exact (keeps_leave files).bind fun _ => hsettings.bind fun _ => ih 0
            · exact hsettings.bind fun _ => ih 0
          · split
            · exact (Keeps.throw misuse).bind fun (_ : Unit) => hsettings.bind fun _ =>
                (keeps_setFlag files _).bind fun _ => ih 1
            · exact hsettings.bind fun _ => (keeps_setFlag files _).bind fun _ => ih 1
          · exact .throw _
      all_goals
        refine .bind (fun _ hp => hp) fun p => ?_
        split
        · exact (keeps_leave files).bind fun _ => ih 0
        · exact (Keeps.option_forM _ (keeps_takeInput files)).bind fun _ =>
            (Keeps.option_forM _ (keeps_takeOutput files)).bind fun _ => ih _

/-- What a command line that names no output has found. -/
theorem untouched_readArguments {files : Files} {args : List String} {source : Source}
    {progress : Progress} (h : readArguments files args = (.ok source, progress)) :
    progress.Untouched files ∧ progress.settings.input = some source := by
  have hstart : Progress.Untouched files ⟨files, .initial, false⟩ :=
    fun _ => ⟨rfl, fun _ _ h => by cases h⟩
  unfold readArguments takeAll at h
  cases hroles : tellApart args with
  | none =>
    rw [hroles] at h
    cases h
  | some roles =>
    rw [hroles] at h
    have htake := keeps_take files 0 roles _ hstart
    dsimp only at h
    rw [ExceptT.run_bind, StateT.run_bind] at h
    generalize (take 0 roles).run.run _ = r at h htake
    obtain ⟨e | a, p⟩ := r
    · cases h
    · obtain ⟨files', ⟨input, output, names, feed, interval, alternate⟩, leftOver⟩ := p
      cases input <;> cases leftOver <;> cases h
      exact ⟨htake, rfl⟩

/-! ## What a command does to the files -/

/-- Nothing is written for what cannot be read. -/
theorem compile_unread {read : Xml.DocumentReader} {bytes : ByteArray} (h : read bytes = none)
    (opts : Dve.Options) : (compile read opts bytes).text = "" := by
  have hcharts : chartsOf read bytes = .error (.invalid .unreadable) := by
    rw [chartsOf, parseDocument, h]
    rfl
  rw [compile, hcharts]

theorem Files.get?_write {fs : Files} {p q : Path} (h : p ≠ q) (text : String) :
    (fs.write q text).get? p = fs.get? p := by
  unfold Files.write
  split <;> rw [Table.get?_insert, if_neg (Ne.symm h)]

section Execute

variable {read : Xml.DocumentReader} {files opened : Files} {s : Settings} {source : Source}
  {out : Path}

/-- A command changes no file but its output. -/
theorem get?_execute (hopen : openOutput files s source = .ok (.file out, opened))
    (standard : Option Path) {p : Path} (hp : p ≠ out) :
    (execute read files standard s source).files.get? p = opened.get? p := by
  rw [execute, hopen]
  dsimp only
  split
  · rfl
  · rfl
  · exact Files.get?_write hp _

/-- A command whose output is its input leaves it empty, if nothing is read from an empty file. -/
theorem get?_execute_self (hblank : read ByteArray.empty = none)
    (hopen : openOutput files s source = .ok (.file out, opened))
    (hchannel : source.channel = .file out)
    (hempty : opened.get? out = some (.file (.bytes ByteArray.empty))) (standard : Option Path) :
    (execute read files standard s source).files.get? out =
      some (.file (.bytes ByteArray.empty)) := by
  have hcontent : opened.content out = .bytes ByteArray.empty := by
    rw [Files.content, hempty]
  have hdocument : document? (contentOf opened standard source.channel) = some ByteArray.empty := by
    rw [hchannel, contentOf, hcontent]
    rfl
  rw [execute, hopen]
  dsimp only
  rw [hdocument]
  cases optionsOf s with
  | error f => exact hempty
  | ok opts =>
    dsimp only
    rw [compile_unread hblank, deliver, Files.write, hcontent, Table.get?_insert, if_pos rfl]
    rfl

end Execute

/-- The output is beside the input and has its name with another suffix, just if the name of the
input has no dot or its last dot is that of a suffix. It is another file unless the input has the
suffix of an output. No other file changes, and an input that is its own output is emptied, if
nothing is read from an empty file. -/
theorem default_output_beside_iff (read : Xml.DocumentReader) (files opened : Files)
    (standard : Option Path) (args : List String) (progress : Progress) (name : String)
    (path out : Path)
    (hread : readArguments files args = (.ok ⟨name, .file path⟩, progress))
    (hnone : progress.settings.output = none)
    (hopen : openOutput progress.files progress.settings ⟨name, .file path⟩ =
      .ok (.file out, opened)) :
    ∃ (dir : Path) (base : String) (dir' : Path) (base' : String),
      path = dir ++ [base] ∧ out = dir' ++ [base'] ∧
      (dir' = dir ∧ base'.toList = stem base.toList ++ ".dve".toList ↔
        ('.' ∈ name.toList → '.' ∈ base.toList.dropWhile (· == '.'))) ∧
      (out = path ↔ ".dve".toList <:+ base.toList) ∧
      (∀ p, p ≠ out → (run read files standard args).files.get? p = files.get? p) ∧
      (out = path → read ByteArray.empty = none →
        (run read files standard args).files.get? path =
          some (.file (.bytes ByteArray.empty))) := by
  obtain ⟨huntouched, hinput⟩ := untouched_readArguments hread
  obtain ⟨hfiles, hin⟩ := huntouched hnone
  have hrun : run read files standard args =
      execute read progress.files standard progress.settings ⟨name, .file path⟩ := by
    rw [run, hread]
  have hwrite : files.openToWrite (defaultOutput name) = .ok (out, opened) := by
    have hdefault := hopen
    rw [openOutput, hnone, hfiles] at hdefault
    dsimp only at hdefault
    split at hdefault
    · next hok =>
      cases hdefault
      exact hok
    · cases hdefault
  obtain ⟨-, hopened⟩ := Files.openToWrite_eq hwrite
  obtain ⟨dir, base, dir', base', hpath, hout, hbeside, hsame⟩ :=
    defaultOutput_placed (hin name path hinput) hwrite
  refine ⟨dir, base, dir', base', hpath, hout, hbeside, hsame, fun p hp => ?_, ?_⟩
  · rw [hrun, get?_execute hopen standard hp, hopened, Table.get?_insert, if_neg (Ne.symm hp)]
  · rintro rfl hblank
    rw [hrun]
    refine get?_execute_self hblank hopen rfl ?_ standard
    rw [hopened, Table.get?_insert, if_pos rfl]

/-- A small document as the only file. -/
def only (path : Path) : Files := ⟨[(path, .file (.bytes "<m/>".toUTF8))]⟩

/-- A reader of the small document. -/
def readSmall : Xml.DocumentReader := fun bytes =>
  if bytes.data == "<m/>".toUTF8.data then some (.element ⟨none, "m"⟩ [] []) else none

/-- The last dot is that of the suffix, behind one that stands for a directory and one in the name
of another. -/
theorem default_output_beside_nested :
    (readArguments (only ["a.b", "m.xml"]) ["-f", "./a.b/m.xml"]).1 =
        .ok ⟨"./a.b/m.xml", .file ["a.b", "m.xml"]⟩ ∧
      "m.dve".toList = stem "m.xml".toList ++ ".dve".toList ∧
      ["a.b", "m.dve"] ≠ ["a.b", "m.xml"] ∧
      ∀ p, p ≠ ["a.b", "m.dve"] →
        (run readSmall (only ["a.b", "m.xml"]) none ["-f", "./a.b/m.xml"]).files.get? p =
          (only ["a.b", "m.xml"]).get? p := by
  have hread : (readArguments (only ["a.b", "m.xml"]) ["-f", "./a.b/m.xml"]).1 =
      .ok ⟨"./a.b/m.xml", .file ["a.b", "m.xml"]⟩ := by
    decide +kernel
  have hnone : (readArguments (only ["a.b", "m.xml"])
      ["-f", "./a.b/m.xml"]).2.settings.output = none := by
    decide +kernel
  have hfile : (openOutput (readArguments (only ["a.b", "m.xml"]) ["-f", "./a.b/m.xml"]).2.files
      (readArguments (only ["a.b", "m.xml"]) ["-f", "./a.b/m.xml"]).2.settings
      ⟨"./a.b/m.xml", .file ["a.b", "m.xml"]⟩).map Prod.fst = .ok (.file ["a.b", "m.dve"]) := by
    decide +kernel
  refine ⟨hread, ?_⟩
  generalize hline : readArguments (only ["a.b", "m.xml"]) ["-f", "./a.b/m.xml"] = line at *
  obtain ⟨source, progress⟩ := line
  cases hread
  cases hopen : openOutput progress.files progress.settings
      ⟨"./a.b/m.xml", .file ["a.b", "m.xml"]⟩ with
  | error report =>
    rw [hopen] at hfile
    cases hfile
  | ok target =>
    obtain ⟨channel, opened⟩ := target
    rw [hopen] at hfile
    cases hfile
    obtain ⟨dir, base, dir', base', hpath, hout, hbeside, hsame, hothers, -⟩ :=
      default_output_beside_iff readSmall (only ["a.b", "m.xml"]) opened none
        ["-f", "./a.b/m.xml"] progress "./a.b/m.xml" ["a.b", "m.xml"] ["a.b", "m.dve"] hline hnone
        hopen
    have hsplit : ["a.b"] ++ ["m.xml"] = dir ++ [base] := hpath
    have hsplit' : ["a.b"] ++ ["m.dve"] = dir' ++ [base'] := hout
    obtain ⟨rfl, hbase⟩ := List.append_inj' hsplit rfl
    obtain ⟨rfl, hbase'⟩ := List.append_inj' hsplit' rfl
    cases hbase
    cases hbase'
    exact ⟨(hbeside.mpr (by decide +kernel)).2, mt hsame.mp (by decide +kernel), hothers⟩

/-- A name cut in the name of its directory, one that starts with its dot, and one that is its own
output. -/
theorem default_output_elsewhere :
    (run readSmall (only ["d.x", "model"]) none ["d.x/model"]).files.keys =
        [["d.x", "model"], ["d.dve"]] ∧
      (run readSmall (only [".model"]) none [".model"]).files.keys = [[".model"], [".dve"]] ∧
      (document? ((only ["model.dve"]).content ["model.dve"])).map ByteArray.size = some 4 ∧
      (document? ((run readSmall (only ["model.dve"]) none ["model.dve"]).files.content
        ["model.dve"])).map ByteArray.size = some 0 := by
  decide +kernel

end Statechart.Command
