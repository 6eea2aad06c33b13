import Mathlib.Data.List.Nodup

/-!
# Insertion-ordered maps

A finite map that remembers the order in which its keys first came in: an association list whose
keys are distinct, by a field of the structure. A new key is appended, a known key is overwritten
where it stands, an erased key is dropped.
-/

/-- A map with its keys in insertion order. -/
structure OrderedMap (κ ν : Type*) where
  entries : List (κ × ν)
  nodup : (entries.map Prod.fst).Nodup

namespace OrderedMap

variable {κ ν : Type*}

@[ext] theorem ext {s t : OrderedMap κ ν} (h : s.entries = t.entries) : s = t := by
  cases s; cases t; cases h; rfl

def empty : OrderedMap κ ν := ⟨[], List.nodup_nil⟩

instance : Inhabited (OrderedMap κ ν) := ⟨empty⟩

variable [DecidableEq κ]

def find? (s : OrderedMap κ ν) (k : κ) : Option ν := s.entries.lookup k

def erase (s : OrderedMap κ ν) (k : κ) : OrderedMap κ ν :=
  ⟨s.entries.filter fun e => e.1 ≠ k, s.nodup.sublist (List.filter_sublist.map _)⟩

/-- Overwriting the value of `k` where it stands. -/
def overwrite (s : OrderedMap κ ν) (k : κ) (v : ν) : OrderedMap κ ν :=
  ⟨s.entries.map fun e => if e.1 = k then (k, v) else e, by
    have h : (s.entries.map fun e => if e.1 = k then (k, v) else e).map Prod.fst =
        s.entries.map Prod.fst := by
      rw [List.map_map]
      apply List.map_congr_left
      intro e _
      by_cases he : e.1 = k <;> simp [he]
    rw [h]
    exact s.nodup⟩

variable {s : OrderedMap κ ν} {k k' : κ} {v v' : ν}

@[simp] theorem find?_empty : (empty : OrderedMap κ ν).find? k = none := rfl

theorem find?_eq_none_iff : s.find? k = none ↔ k ∉ s.entries.map Prod.fst := by
  rw [find?, List.lookup_eq_none_iff]
  simp only [bne_iff_ne, ne_eq, List.mem_map, not_exists, not_and]
  exact ⟨fun h e he e' => h e he e'.symm, fun h e he e' => h e he e'.symm⟩

/-- Appending a key that is not there. -/
def push (s : OrderedMap κ ν) (k : κ) (v : ν) (h : s.find? k = none) : OrderedMap κ ν :=
  ⟨s.entries ++ [(k, v)], by
    rw [List.map_append]
    refine List.nodup_append.mpr ⟨s.nodup, List.nodup_singleton _, ?_⟩
    rintro a ha b hb rfl
    rw [List.map_singleton, List.mem_singleton] at hb
    subst hb
    exact find?_eq_none_iff.mp h ha⟩

def insert (s : OrderedMap κ ν) (k : κ) (v : ν) : OrderedMap κ ν :=
  if h : s.find? k = none then s.push k v h else s.overwrite k v

theorem insert_of_none (h : s.find? k = none) : s.insert k v = s.push k v h := dif_pos h

theorem insert_of_some (h : s.find? k = some v') : s.insert k v = s.overwrite k v :=
  dif_neg (by simp [h])

/-- Finding is membership. -/
theorem find?_eq_some_iff : s.find? k = some v ↔ (k, v) ∈ s.entries := by
  rw [find?]
  have hn := s.nodup
  generalize s.entries = l at hn
  induction l with
  | nil => simp
  | cons e l ih =>
    rw [List.map_cons, List.nodup_cons] at hn
    rw [List.lookup_cons, List.mem_cons]
    by_cases he : k = e.1
    · subst he
      have hnot : (e.1, v) ∉ l := fun h => hn.1 (List.mem_map.mpr ⟨_, h, rfl⟩)
      simp [hnot, Prod.ext_iff, eq_comm]
    · rw [show (k == e.1) = false by simpa using he]
      simp [ih hn.2, Prod.ext_iff, he]

theorem find?_push (h : s.find? k = none) :
    (s.push k v h).find? k' = if k' = k then some v else s.find? k' := by
  rw [find?, push, List.lookup_append, ← find?, List.lookup_cons]
  by_cases hk : k' = k
  · subst hk
    simp [h]
  · rw [if_neg hk, show (k' == k) = false by simpa using hk]
    simp

theorem find?_overwrite (h : s.find? k = some v') :
    (s.overwrite k v).find? k' = if k' = k then some v else s.find? k' := by
  by_cases hk : k' = k
  · subst hk
    rw [if_pos rfl, find?_eq_some_iff]
    exact List.mem_map.mpr ⟨(k', v'), find?_eq_some_iff.mp h, by simp⟩
  · rw [if_neg hk]
    apply Option.ext
    intro w
    rw [find?_eq_some_iff, find?_eq_some_iff, overwrite, List.mem_map]
    constructor
    · rintro ⟨e, he, heq⟩
      by_cases hek : e.1 = k
      · rw [if_pos hek, Prod.mk.injEq] at heq
        exact absurd heq.1.symm hk
      · rw [if_neg hek] at heq
        exact heq ▸ he
    · intro hw
      exact ⟨(k', w), hw, if_neg hk⟩

/-- **Insert.** -/
theorem find?_insert : (s.insert k v).find? k' = if k' = k then some v else s.find? k' := by
  cases h : s.find? k with
  | none => rw [insert_of_none h, find?_push h]
  | some v' => rw [insert_of_some h, find?_overwrite h]

/-- **Erase.** -/
theorem find?_erase : (s.erase k).find? k' = if k' = k then none else s.find? k' := by
  by_cases hk : k' = k
  · subst hk
    rw [if_pos rfl, find?_eq_none_iff, erase]
    simp
  · rw [if_neg hk]
    apply Option.ext
    intro w
    rw [find?_eq_some_iff, find?_eq_some_iff, erase, List.mem_filter]
    simp [hk]

theorem erase_of_none (h : s.find? k = none) : s.erase k = s := by
  refine ext (List.filter_eq_self.mpr fun e he => ?_)
  have := find?_eq_none_iff.mp h
  simp only [ne_eq, decide_not, Bool.not_eq_eq_eq_not, Bool.not_true, decide_eq_false_iff_not]
  rintro rfl
  exact this (List.mem_map_of_mem he)

theorem perm_erase (h : s.find? k = some v) : s.entries.Perm ((k, v) :: (s.erase k).entries) := by
  rw [find?_eq_some_iff] at h
  have hn := s.nodup
  show s.entries.Perm ((k, v) :: s.entries.filter fun e => e.1 ≠ k)
  generalize s.entries = l at h hn
  induction l with
  | nil => cases h
  | cons e l ih =>
    rw [List.map_cons, List.nodup_cons] at hn
    rcases List.mem_cons.mp h with rfl | h
    · have hl : l.filter (fun e => e.1 ≠ k) = l := by
        apply List.filter_eq_self.mpr
        intro e he
        simp only [ne_eq, decide_not, Bool.not_eq_eq_eq_not, Bool.not_true,
          decide_eq_false_iff_not]
        rintro rfl
        exact hn.1 (List.mem_map.mpr ⟨e, he, rfl⟩)
      rw [List.filter_cons, if_neg (by simp), hl]
    · have hek : e.1 ≠ k := fun he => hn.1 (List.mem_map.mpr ⟨(k, v), h, he.symm⟩)
      rw [List.filter_cons, if_pos (by simpa using hek)]
      exact ((ih h hn.2).cons e).trans (List.Perm.swap _ _ _)

theorem length_erase (h : s.find? k = some v) :
    (s.erase k).entries.length + 1 = s.entries.length := (perm_erase h).length_eq.symm

/-- Inserting replaces what the map has for the key. -/
theorem perm_insert : (s.insert k v).entries.Perm ((k, v) :: (s.erase k).entries) := by
  have h := perm_erase (s := s.insert k v) (k := k) (v := v) (by rw [find?_insert, if_pos rfl])
  have he : (s.insert k v).erase k = s.erase k := by
    cases hf : s.find? k with
    | none => simp [insert_of_none hf, push, erase]
    | some v' =>
      rw [insert_of_some hf]
      refine ext ?_
      show (s.entries.map fun e => if e.1 = k then (k, v) else e).filter _ = s.entries.filter _
      rw [List.filter_map, List.map_congr_left, List.map_id]
      · apply List.filter_congr
        intro e _
        by_cases hk : e.1 = k <;> simp [hk]
      · intro e he
        have := (List.mem_filter.mp he).2
        by_cases hk : e.1 = k
        · simp [hk] at this
        · simp [hk]
  rwa [he] at h

@[simp] theorem length_overwrite : (s.overwrite k v).entries.length = s.entries.length := by
  simp [overwrite]

end OrderedMap
