import Mathlib.Data.List.Nodup
import Statechart.Table

/-!
Keys and values of tables. Entering a key adds it at the end unless it is there already, so keys are
never repeated, and the keys that are there are those that have a value. Of several values that are
entered for a key the last one is kept.
-/

namespace Statechart.Table

variable {κ α : Type} [DecidableEq κ]

theorem keys_put (k : κ) (a : α) (es : List (κ × α)) :
    (put k a es).map (·.1) =
      if k ∈ es.map (·.1) then es.map (·.1) else es.map (·.1) ++ [k] := by
  induction es with
  | nil => rfl
  | cons e es ih =>
    by_cases he : e.1 = k
    · simp [put, he]
    · have hk : k ≠ e.1 := fun h => he h.symm
      rw [put, if_neg he, List.map_cons, List.map_cons, ih]
      by_cases hmem : k ∈ es.map (·.1)
      · rw [if_pos hmem, if_pos (List.mem_cons_of_mem _ hmem)]
      · rw [if_neg hmem, if_neg (by simpa [hk] using hmem), List.cons_append]

theorem put_of_not_mem {k : κ} {es : List (κ × α)} (h : k ∉ es.map (·.1)) (a : α) :
    put k a es = es ++ [(k, a)] := by
  induction es with
  | nil => rfl
  | cons e es ih =>
    obtain ⟨hne, hrest⟩ := not_or.mp (List.mem_cons.not.mp h)
    rw [put, if_neg (Ne.symm hne), ih hrest, List.cons_append]

theorem nodup_insert {t : Table κ α} (h : t.keys.Nodup) (k : κ) (a : α) :
    (t.insert k a).keys.Nodup := by
  rw [keys, insert, keys_put]
  split
  · exact h
  · next hnot => exact List.nodup_append.mpr ⟨h, List.nodup_singleton _, by
      intro j hj k' hk' he
      rw [List.mem_singleton.mp hk'] at he
      exact hnot (he ▸ hj)⟩

theorem nodup_insertAll (es : List (κ × α)) {t : Table κ α} (h : t.keys.Nodup) :
    (t.insertAll es).keys.Nodup := by
  induction es generalizing t with
  | nil => exact h
  | cons e es ih => exact ih (nodup_insert h e.1 e.2)

theorem nodup_ofList (es : List (κ × α)) : (ofList es).keys.Nodup :=
  nodup_insertAll es List.nodup_nil

theorem mem_keys_insert {t : Table κ α} {k j : κ} {a : α} :
    j ∈ (t.insert k a).keys ↔ j = k ∨ j ∈ t.keys := by
  rw [keys, insert, keys_put, keys]
  split
  · next hk =>
    constructor
    · exact .inr
    · rintro (rfl | hj)
      · exact hk
      · exact hj
  · rw [List.mem_append, List.mem_singleton, or_comm]

theorem mem_keys_insertAll {es : List (κ × α)} {t : Table κ α} {j : κ} :
    j ∈ (t.insertAll es).keys ↔ j ∈ es.map (·.1) ∨ j ∈ t.keys := by
  induction es generalizing t with
  | nil => simp [insertAll]
  | cons e es ih =>
    have hstep : t.insertAll (e :: es) = (t.insert e.1 e.2).insertAll es := rfl
    rw [hstep, ih, mem_keys_insert, List.map_cons, List.mem_cons, or_left_comm, or_assoc]

theorem mem_keys_ofList {es : List (κ × α)} {j : κ} :
    j ∈ (ofList es).keys ↔ j ∈ es.map (·.1) := by
  rw [ofList, mem_keys_insertAll]
  simp [keys, empty]

theorem isSome_get? {t : Table κ α} {k : κ} : (t.get? k).isSome = true ↔ k ∈ t.keys := by
  obtain ⟨es⟩ := t
  show (look k es).isSome = true ↔ k ∈ es.map (·.1)
  induction es with
  | nil => simp [look]
  | cons e es ih =>
    rw [look, List.map_cons, List.mem_cons]
    by_cases he : e.1 = k
    · simp [he]
    · rw [if_neg he, ih]
      have hk : k ≠ e.1 := fun h => he h.symm
      simp [hk]

theorem mem_keys_of_get? {t : Table κ α} {k : κ} {a : α} (h : t.get? k = some a) : k ∈ t.keys :=
  isSome_get?.mp (by rw [h]; rfl)

/-- Entries with new keys come behind the others. -/
theorem entries_insertAll {es : List (κ × α)} {t : Table κ α} (hnodup : (es.map (·.1)).Nodup)
    (hnew : ∀ e ∈ es, e.1 ∉ t.keys) : (t.insertAll es).entries = t.entries ++ es := by
  induction es generalizing t with
  | nil => exact (List.append_nil _).symm
  | cons e es ih =>
    obtain ⟨hfirst, hnodup⟩ := List.nodup_cons.mp hnodup
    obtain ⟨he, hnew⟩ := List.forall_mem_cons.mp hnew
    have hstep : t.insertAll (e :: es) = (t.insert e.1 e.2).insertAll es := rfl
    rw [hstep, ih hnodup]
    · rw [insert, put_of_not_mem he, List.append_assoc]
      rfl
    · intro e' he' hmem
      rcases mem_keys_insert.mp hmem with heq | hmem
      · exact hfirst (List.mem_map.mpr ⟨e', he', heq⟩)
      · exact hnew e' he' hmem

/-! ## Values -/

theorem look_append (k : κ) (es fs : List (κ × α)) :
    look k (es ++ fs) = (look k es).or (look k fs) := by
  induction es with
  | nil => rfl
  | cons e es ih =>
    rw [List.cons_append, look, look]
    by_cases he : e.1 = k
    · rw [if_pos he, if_pos he, Option.some_or]
    · rw [if_neg he, if_neg he, ih]

theorem mem_of_look {k : κ} {a : α} {es : List (κ × α)} (h : look k es = some a) :
    (k, a) ∈ es := by
  induction es with
  | nil => cases h
  | cons e es ih =>
    rw [look] at h
    split at h
    · next he =>
      cases h
      rw [← he]
      exact List.mem_cons_self ..
    · exact List.mem_cons_of_mem _ (ih h)

theorem look_of_mem {k : κ} {a : α} {es : List (κ × α)} (hnodup : (es.map (·.1)).Nodup)
    (h : (k, a) ∈ es) : look k es = some a := by
  induction es with
  | nil => cases h
  | cons e es ih =>
    obtain ⟨hnot, hnodup⟩ := List.nodup_cons.mp hnodup
    rw [look]
    rcases List.mem_cons.mp h with rfl | h
    · rw [if_pos rfl]
    · rw [if_neg fun he => hnot (List.mem_map.mpr ⟨_, h, he.symm⟩), ih hnodup h]

/-- Of several values for a key the last one is kept. -/
theorem get?_insertAll (es : List (κ × α)) (t : Table κ α) (k : κ) :
    (t.insertAll es).get? k = (look k es.reverse).or (t.get? k) := by
  induction es generalizing t with
  | nil => rfl
  | cons e es ih =>
    have hstep : t.insertAll (e :: es) = (t.insert e.1 e.2).insertAll es := rfl
    rw [hstep, ih, get?_insert, List.reverse_cons, look_append, Option.or_assoc]
    congr 1
    by_cases he : e.1 = k <;> simp [look, he]

theorem mem_of_get?_ofList {es : List (κ × α)} {k : κ} {a : α}
    (h : (ofList es).get? k = some a) : (k, a) ∈ es := by
  rw [ofList, get?_insertAll, get?_empty, Option.or_none] at h
  exact List.mem_reverse.mp (mem_of_look h)

theorem get?_ofList {es : List (κ × α)} (hnodup : (es.map (·.1)).Nodup) {k : κ} {a : α} :
    (ofList es).get? k = some a ↔ (k, a) ∈ es := by
  refine ⟨mem_of_get?_ofList, fun h => ?_⟩
  have hreverse : (es.reverse.map (·.1)).Nodup := by
    rw [List.map_reverse, List.nodup_reverse]
    exact hnodup
  rw [ofList, get?_insertAll, look_of_mem hreverse (List.mem_reverse.mpr h), Option.some_or]

/-- What is entered comes first. -/
theorem get?_merge (t : Table κ α) {u : Table κ α} (hu : u.keys.Nodup) (k : κ) :
    (t.merge u).get? k = (u.get? k).or (t.get? k) := by
  have hlook : look k u.entries.reverse = look k u.entries := by
    refine Option.ext fun a => ?_
    have hreverse : (u.entries.reverse.map (·.1)).Nodup := by
      rw [List.map_reverse, List.nodup_reverse]
      exact hu
    constructor
    · intro h
      exact look_of_mem hu (List.mem_reverse.mp (mem_of_look h))
    · intro h
      exact look_of_mem hreverse (List.mem_reverse.mpr (mem_of_look h))
  rw [merge, get?_insertAll, hlook]
  rfl

end Statechart.Table
