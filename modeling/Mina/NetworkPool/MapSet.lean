/-
Multimaps (`network_pool/map_set.ml`): maps from keys to non-empty sets, and
what it means for one to index a set of values by a key of theirs.
-/
import Mina.Base.Currency
import Mina.Base.Exn

namespace Mina

open Std (ExtTreeMap ExtTreeSet)

/-- A map from keys to sets of values. -/
abbrev MapSet (k v : Type) [LinearOrder k] [LinearOrder v] :=
  ExtTreeMap k (ExtTreeSet v compare) compare

namespace MapSet

variable {k v : Type} [LinearOrder k] [LinearOrder v]

/-- Remove an element from a mapset. -/
def removeExn (map : MapSet k v) (key : k) (x : v) : Exn (MapSet k v) :=
  match map[key]? with
  | none => .error "Map.find_exn: not found"
  | some set =>
    let newset := set.erase x
    if newset.isEmpty then .ok (map.erase key) else .ok (map.insert key newset)

/-- Add an element to a mapset. -/
def insert (map : MapSet k v) (key : k) (x : v) : MapSet k v :=
  ExtTreeMap.alter map key fun
    | none => some ((∅ : ExtTreeSet v compare).insert x)
    | some set => some (set.insert x)

/-- `x` is stored under `key`. -/
def Mem (map : MapSet k v) (key : k) (x : v) : Prop := ∃ set, map[key]? = some set ∧ x ∈ set

/-- No empty set is stored. -/
def NoEmpty (map : MapSet k v) : Prop := ∀ (key : k) (set : ExtTreeSet v compare),
  map[key]? = some set → ∃ x, x ∈ set

/-- `map` holds exactly the values in `S`, each under its own key, and no
empty set. -/
structure Indexes (map : MapSet k v) (key : v → k) (S : v → Prop) : Prop where
  mem : ∀ i x, Mem map i x ↔ key x = i ∧ S x
  noEmpty : NoEmpty map

theorem isEmpty_eq_true {s : ExtTreeSet v compare} : s.isEmpty = true ↔ ∀ x, x ∉ s :=
  ExtTreeSet.isEmpty_iff.trans ExtTreeSet.eq_empty_iff_forall_not_mem

theorem mem_insert {map : MapSet k v} {i j : k} {x y : v} :
    Mem (insert map i x) j y ↔ Mem map j y ∨ j = i ∧ y = x := by
  simp only [Mem, insert, ExtTreeMap.getElem?_alter, compare_eq_iff_eq]
  by_cases h : i = j
  · subst h
    cases map[i]? <;> simp [ExtTreeSet.mem_insert, @eq_comm _ y x, or_comm]
  · have h' : ¬ j = i := fun e => h e.symm
    simp [h, h']

theorem noEmpty_insert {map : MapSet k v} (h : NoEmpty map) (i : k) (x : v) : NoEmpty (insert map i x) := by
  intro j set hs
  simp only [insert, ExtTreeMap.getElem?_alter, compare_eq_iff_eq] at hs
  split at hs
  · split at hs
    all_goals
      simp only [Option.some.injEq] at hs
      subst hs
      exact ⟨x, ExtTreeSet.mem_insert_self⟩
  · exact h j set hs

/-- Removing succeeds exactly when something is stored under the key. -/
theorem removeExn_ok {map : MapSet k v} (h : NoEmpty map) {i : k} {y : v} (hi : Mem map i y) (x : v) :
    ∃ map', removeExn map i x = .ok map' ∧ NoEmpty map' ∧
      ∀ j z, Mem map' j z ↔ Mem map j z ∧ ¬(j = i ∧ z = x) := by
  obtain ⟨set, hset, -⟩ := hi
  simp only [removeExn, hset]
  split
  · next hempty =>
    rw [isEmpty_eq_true] at hempty
    refine ⟨_, rfl, ?_, ?_⟩
    · intro j s hs
      rw [ExtTreeMap.getElem?_erase] at hs
      split at hs
      · simp at hs
      · exact h j s hs
    · intro j z
      simp only [Mem, ExtTreeMap.getElem?_erase, compare_eq_iff_eq]
      by_cases hij : i = j
      · subst hij
        have := hempty z
        simp only [ExtTreeSet.mem_erase, compare_eq_iff_eq, ne_eq, not_and] at this
        simp only [if_true, reduceCtorEq, false_and, exists_false, true_and, hset, Option.some.injEq,
          exists_eq_left', false_iff, not_and, not_not]
        intro hz
        by_contra hne
        exact this (fun e => hne e.symm) hz
      · have : ¬ j = i := fun e => hij e.symm
        simp [hij, this]
  · next hempty =>
    rw [isEmpty_eq_true, not_forall_not] at hempty
    refine ⟨_, rfl, ?_, ?_⟩
    · intro j s hs
      rw [ExtTreeMap.getElem?_insert] at hs
      split at hs
      · simp only [Option.some.injEq] at hs
        subst hs
        exact hempty
      · exact h j s hs
    · intro j z
      simp only [Mem, ExtTreeMap.getElem?_insert, compare_eq_iff_eq]
      by_cases hij : i = j
      · subst hij
        simp only [if_true, Option.some.injEq, exists_eq_left', hset, ExtTreeSet.mem_erase,
          compare_eq_iff_eq, ne_eq, true_and]
        rw [and_comm, eq_comm]
      · have : ¬ j = i := fun e => hij e.symm
        simp [hij, this]

theorem mem_of_removeExn {map map' : MapSet k v} {i j : k} {x y : v} (h : removeExn map i x = .ok map')
    (hm : Mem map' j y) : Mem map j y := by
  simp only [removeExn] at h
  split at h
  · simp at h
  · next set hset =>
    obtain ⟨set', hset', hy⟩ := hm
    split at h
    · cases h
      rw [ExtTreeMap.getElem?_erase] at hset'
      split at hset'
      · simp at hset'
      · exact ⟨set', hset', hy⟩
    · cases h
      simp only [ExtTreeMap.getElem?_insert, compare_eq_iff_eq] at hset'
      split at hset'
      · next hij =>
        subst hij
        simp only [Option.some.injEq] at hset'
        subst hset'
        exact ⟨set, hset, (ExtTreeSet.mem_erase.1 hy).2⟩
      · exact ⟨set', hset', hy⟩

theorem removeExn_key {map map' : MapSet k v} {i : k} {x : v} (h : removeExn map i x = .ok map')
    (hne : NoEmpty map) : ∃ y, Mem map i y := by
  simp only [removeExn] at h
  split at h
  · simp at h
  · next set hset =>
    obtain ⟨y, hy⟩ := hne i set hset
    exact ⟨y, set, hset, hy⟩

namespace Indexes

variable {map : MapSet k v} {key : v → k} {S : v → Prop}

theorem empty (key : v → k) : Indexes (∅ : MapSet k v) key fun _ => False where
  mem := by simp [Mem]
  noEmpty := by simp [NoEmpty]

theorem congr {T : v → Prop} (h : Indexes map key S) (hST : ∀ x, S x ↔ T x) : Indexes map key T where
  mem i x := by rw [h.mem, hST]
  noEmpty := h.noEmpty

theorem insert (h : Indexes map key S) (x : v) :
    Indexes (MapSet.insert map (key x) x) key fun y => S y ∨ y = x where
  mem i y := by
    rw [mem_insert, h.mem]
    constructor
    · rintro (⟨rfl, hy⟩ | ⟨rfl, rfl⟩)
      · exact ⟨rfl, .inl hy⟩
      · exact ⟨rfl, .inr rfl⟩
    · rintro ⟨rfl, hy | rfl⟩
      · exact .inl ⟨rfl, hy⟩
      · exact .inr ⟨rfl, rfl⟩
  noEmpty := noEmpty_insert h.noEmpty _ _

/-- Removing `x` goes through as long as some indexed value has `x`'s key. -/
theorem removeExn_of_key (h : Indexes map key S) {x y : v} (hy : S y) (hk : key y = key x) :
    ∃ map', MapSet.removeExn map (key x) x = .ok map' ∧ Indexes map' key fun z => S z ∧ z ≠ x := by
  obtain ⟨map', hm, hne, hmem⟩ := removeExn_ok h.noEmpty ((h.mem (key x) y).2 ⟨hk, hy⟩) x
  refine ⟨map', hm, ⟨fun i z => ?_, hne⟩⟩
  rw [hmem, h.mem]
  constructor
  · rintro ⟨⟨rfl, hz⟩, hn⟩
    exact ⟨rfl, hz, fun e => hn ⟨by rw [e], e⟩⟩
  · rintro ⟨rfl, hz, hn⟩
    exact ⟨⟨rfl, hz⟩, fun e => hn e.2⟩

theorem removeExn (h : Indexes map key S) {x : v} (hx : S x) :
    ∃ map', MapSet.removeExn map (key x) x = .ok map' ∧ Indexes map' key fun z => S z ∧ z ≠ x :=
  h.removeExn_of_key hx rfl

end Indexes

end MapSet

end Mina
