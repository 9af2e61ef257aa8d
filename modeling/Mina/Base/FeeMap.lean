/-
Sums of fees and maps from keys to fees. A sum that overflows is an error;
what the fee function of an element raises is raised. A map built from a list
of entries adds up the entries of one key.

The facts are about natural numbers: what a map holds for a key (`amount`),
what a list of entries owes to it (`owed`), and the totals over the keys that
a predicate picks. A total over a map is a sum over any finite set that
contains its keys (`total_eq_sum`), so totals are computed key by key.
-/
import Mina.Base.Currency
import Mina.Base.Exn

namespace Mina

open Std (ExtTreeMap)

variable {α k : Type}

/-! ## Sums -/

/-- `sum_fees`, from the sum so far. -/
def sumFeesFrom (f : α → Exn Fee) (acc : Fee) : List α → Exn (Except String Fee)
  | [] => .ok (.ok acc)
  | x :: xs =>
    (f x).andThen fun fee =>
      match Currency.add acc fee with
      | none => .ok (.error "Fee overflow")
      | some res => sumFeesFrom f res xs

def sumFees (f : α → Exn Fee) (xs : List α) : Exn (Except String Fee) := sumFeesFrom f 0 xs

/-- The fee of an element, or zero when it raises. -/
def feeOf (f : α → Exn Fee) (x : α) : Nat :=
  match f x with
  | .ok fee => fee.val
  | .error _ => 0

theorem feeOf_of_ok {f : α → Exn Fee} {x : α} {fee : Fee} (h : f x = .ok fee) : feeOf f x = fee.val := by
  rw [feeOf, h]

theorem sumFeesFrom_eq_ok {f : α → Exn Fee} : ∀ {xs : List α} {acc s : Fee},
    sumFeesFrom f acc xs = .ok (.ok s) → s.val = acc.val + (xs.map (feeOf f)).sum
  | [], acc, s, h => by
    cases h
    rfl
  | x :: xs, acc, s, h => by
    obtain ⟨fee, hfee, h⟩ := Exn.andThen_eq_ok.1 h
    split at h
    next => cases h
    next res hadd =>
      rw [sumFeesFrom_eq_ok h, Currency.add_eq_some.1 hadd, List.map_cons, List.sum_cons, feeOf_of_ok hfee,
        Nat.add_assoc]

theorem sumFees_eq_ok {f : α → Exn Fee} {xs : List α} {s : Fee} (h : sumFees f xs = .ok (.ok s)) :
    s.val = (xs.map (feeOf f)).sum := by
  rw [sumFeesFrom_eq_ok h, Fin.val_zero, Nat.zero_add]

theorem sumFeesFrom_ok {f : α → Exn Fee} : ∀ {xs : List α} {acc : Fee}, (∀ x ∈ xs, ∃ fee, f x = .ok fee) →
    acc.val + (xs.map (feeOf f)).sum < 2 ^ 64 → ∃ s, sumFeesFrom f acc xs = .ok (.ok s)
  | [], acc, _, _ => ⟨acc, rfl⟩
  | x :: xs, acc, hok, hlt => by
    obtain ⟨fee, hfee⟩ := hok x (by simp)
    rw [List.map_cons, List.sum_cons, feeOf_of_ok hfee] at hlt
    rw [sumFeesFrom, hfee, Exn.andThen_ok]
    cases hadd : Currency.add acc fee with
    | none =>
      have := Currency.add_eq_none.1 hadd
      omega
    | some res =>
      have := Currency.add_eq_some.1 hadd
      exact sumFeesFrom_ok (fun x hx => hok x (by simp [hx])) (by omega)

/-- A sum that does not overflow is computed. -/
theorem sumFees_ok {f : α → Exn Fee} {xs : List α} (hok : ∀ x ∈ xs, ∃ fee, f x = .ok fee)
    (hlt : (xs.map (feeOf f)).sum < 2 ^ 64) : ∃ s, sumFees f xs = .ok (.ok s) :=
  sumFeesFrom_ok hok (by rwa [Fin.val_zero, Nat.zero_add])

/-- A sum that is computed or an error raised nothing. -/
theorem fees_of_sumFeesFrom {f : α → Exn Fee} : ∀ {xs : List α} {acc s : Fee},
    sumFeesFrom f acc xs = .ok (.ok s) → ∀ x ∈ xs, ∃ fee, f x = .ok fee
  | x :: xs, acc, s, h, y, hy => by
    obtain ⟨fee, hfee, h⟩ := Exn.andThen_eq_ok.1 h
    rcases List.mem_cons.1 hy with rfl | hy
    · exact ⟨fee, hfee⟩
    · split at h
      next => cases h
      next => exact fees_of_sumFeesFrom h y hy

/-! ## Maps -/

/-- `Public_key.Compressed.Map.t` with fees, over any keys. -/
abbrev FeeMap (k : Type) [LinearOrder k] := ExtTreeMap k Fee compare

namespace FeeMap

variable [LinearOrder k]

/-- `Map.of_alist_reduce ~f:(fun f1 f2 -> Option.value_exn (Fee.add f1 f2))`,
onto a map. -/
def addEntries (m : FeeMap k) : List (k × Fee) → Exn (FeeMap k)
  | [] => .ok m
  | e :: l =>
    match m[e.1]? with
    | none => addEntries (m.insert e.1 e.2) l
    | some f1 => (Exn.valueExn (Currency.add f1 e.2)).andThen fun fee => addEntries (m.insert e.1 fee) l

def ofAlistReduce (singles : List (k × Fee)) : Exn (FeeMap k) := addEntries ∅ singles

/-- What the map holds for a key. -/
def amount (m : FeeMap k) (key : k) : Nat := (m[key]?.map Fin.val).getD 0

/-- What the entries owe to a key. -/
def owed (l : List (k × Fee)) (key : k) : Nat := ((l.filter fun e => e.1 = key).map fun e => e.2.val).sum

@[simp] theorem amount_empty (key : k) : amount (∅ : FeeMap k) key = 0 := by
  simp [amount]

theorem amount_of_some {m : FeeMap k} {key : k} {fee : Fee} (h : m[key]? = some fee) : amount m key = fee.val := by
  rw [amount, h]
  rfl

theorem amount_of_none {m : FeeMap k} {key : k} (h : m[key]? = none) : amount m key = 0 := by
  rw [amount, h]
  rfl

theorem amount_insert (m : FeeMap k) (key : k) (fee : Fee) (key' : k) :
    amount (m.insert key fee) key' = if key = key' then fee.val else amount m key' := by
  rw [amount, ExtTreeMap.getElem?_insert]
  by_cases h : key = key' <;> simp [h, amount]

theorem amount_erase (m : FeeMap k) (key key' : k) :
    amount (m.erase key) key' = if key = key' then 0 else amount m key' := by
  rw [amount, ExtTreeMap.getElem?_erase]
  by_cases h : key = key' <;> simp [h, amount]

theorem amount_filter (p : k → Bool) (m : FeeMap k) (key : k) :
    amount (m.filter fun key _ => p key) key = if p key then amount m key else 0 := by
  rw [amount, ExtTreeMap.getElem?_filter', amount]
  cases hkey : m[key]? <;> cases hp : p key <;> simp [Option.filter]

theorem mem_filter (p : k → Bool) (m : FeeMap k) (key : k) :
    key ∈ m.filter (fun key _ => p key) ↔ key ∈ m ∧ p key := by
  rw [← ExtTreeMap.mem_keys, ExtTreeMap.keys_filter_key, List.mem_filter, ExtTreeMap.mem_keys]

theorem mem_of_amount_pos {m : FeeMap k} {key : k} (h : 0 < amount m key) : key ∈ m := by
  by_contra hkey
  rw [amount_of_none (ExtTreeMap.getElem?_eq_none hkey)] at h
  exact Nat.lt_irrefl 0 h

theorem exists_keys (m : FeeMap k) : ∃ S : Finset k, ∀ key, key ∈ m ↔ key ∈ S :=
  ⟨m.keys.toFinset, fun key => by rw [List.mem_toFinset, ExtTreeMap.mem_keys]⟩

/-- A map is as large as any set of its keys. -/
theorem size_eq_card {m : FeeMap k} {S : Finset k} (h : ∀ key, key ∈ m ↔ key ∈ S) : m.size = S.card := by
  rw [← ExtTreeMap.length_keys, ← List.toFinset_card_of_nodup ExtTreeMap.nodup_keys]
  congr 1
  ext key
  rw [List.mem_toFinset, ExtTreeMap.mem_keys, h]

@[simp] theorem owed_nil (key : k) : owed ([] : List (k × Fee)) key = 0 := rfl

theorem owed_cons (e : k × Fee) (l : List (k × Fee)) (key : k) :
    owed (e :: l) key = (if e.1 = key then e.2.val else 0) + owed l key := by
  rw [owed, List.filter_cons]
  by_cases h : e.1 = key <;> simp [h, owed]

theorem owed_append (l l' : List (k × Fee)) (key : k) : owed (l ++ l') key = owed l key + owed l' key := by
  rw [owed, owed, owed, List.filter_append, List.map_append, List.sum_append]

theorem owed_perm {l l' : List (k × Fee)} (h : l.Perm l') (key : k) : owed l key = owed l' key :=
  ((h.filter _).map _).sum_eq

/-- Entries of the keys that a predicate picks owe to these keys only. -/
theorem owed_filter (p : k → Bool) (l : List (k × Fee)) (key : k) :
    owed (l.filter fun e => p e.1) key = if p key then owed l key else 0 := by
  rw [owed, owed, List.filter_filter]
  split
  next hp =>
    refine congrArg List.sum (congrArg _ (List.filter_congr fun e _ => ?_))
    by_cases he : e.1 = key <;> simp [he, hp]
  next hp =>
    rw [List.filter_eq_nil_iff.2 fun e _ => ?_]
    · rfl
    · by_cases he : e.1 = key <;> simp [he, hp]

/-- Entries of zero owe nothing. -/
theorem owed_filter_ne_zero : ∀ (l : List (k × Fee)) (key : k), owed (l.filter fun e => e.2 ≠ 0) key = owed l key
  | [], key => rfl
  | e :: l, key => by
    rw [List.filter_cons, owed_cons]
    by_cases he : e.2 = 0
    · rw [if_neg (by simpa using he), owed_filter_ne_zero l key, he]
      simp
    · rw [if_pos (by simpa using he), owed_cons, owed_filter_ne_zero l key]

/-- Building a map adds up what the entries owe, and keeps the keys. -/
theorem addEntries_eq_ok : ∀ {l : List (k × Fee)} {m m' : FeeMap k}, addEntries m l = .ok m' →
    ∀ key, amount m' key = amount m key + owed l key ∧ (key ∈ m' ↔ key ∈ m ∨ key ∈ l.map (·.1))
  | [], m, m', h, key => by
    cases h
    simp
  | e :: l, m, m', h, key => by
    have hstep : ∃ fee, addEntries (m.insert e.1 fee) l = .ok m' ∧ fee.val = amount m e.1 + e.2.val := by
      rw [addEntries] at h
      split at h
      next hnone => exact ⟨e.2, h, by rw [amount_of_none hnone, Nat.zero_add]⟩
      next f1 hsome =>
        obtain ⟨fee, hadd, h⟩ := Exn.andThen_eq_ok.1 h
        exact ⟨fee, h, by rw [amount_of_some hsome, Currency.add_eq_some.1 (Exn.valueExn_eq_ok.1 hadd)]⟩
    obtain ⟨fee, hl, hfee⟩ := hstep
    obtain ⟨hamount, hmem⟩ := addEntries_eq_ok hl key
    rw [hamount, hmem, owed_cons, amount_insert, ExtTreeMap.mem_insert, compare_eq_iff_eq, List.map_cons,
      List.mem_cons]
    by_cases hkey : e.1 = key
    · subst hkey
      simp only [if_true, true_or, hfee]
      exact ⟨by omega, by simp⟩
    · simp only [if_neg hkey, Nat.zero_add, true_and]
      have hkey' : ¬ key = e.1 := fun h => hkey h.symm
      tauto

/-- Building a map raises nothing when the sums do not overflow. -/
theorem addEntries_ok : ∀ {l : List (k × Fee)} {m : FeeMap k}, (∀ key, amount m key + owed l key < 2 ^ 64) →
    ∃ m', addEntries m l = .ok m'
  | [], m, _ => ⟨m, rfl⟩
  | e :: l, m, hlt => by
    rw [addEntries]
    have hstep : ∀ fee : Fee, fee.val = amount m e.1 + e.2.val → ∃ m', addEntries (m.insert e.1 fee) l = .ok m' := by
      intro fee hfee
      refine addEntries_ok fun key => ?_
      have := hlt key
      rw [owed_cons] at this
      rw [amount_insert]
      split at this
      next hkey =>
        rw [if_pos hkey, hfee, hkey]
        omega
      next hkey =>
        rw [if_neg hkey]
        omega
    split
    next hnone => exact hstep e.2 (by rw [amount_of_none hnone, Nat.zero_add])
    next f1 hsome =>
      have hcur := hlt e.1
      rw [owed_cons, if_pos rfl, amount_of_some hsome] at hcur
      cases hadd : Currency.add f1 e.2 with
      | none =>
        have := Currency.add_eq_none.1 hadd
        omega
      | some fee =>
        rw [Exn.valueExn_some, Exn.andThen_ok]
        exact hstep fee (by rw [amount_of_some hsome, Currency.add_eq_some.1 hadd])

theorem ofAlistReduce_eq_ok {l : List (k × Fee)} {m : FeeMap k} (h : ofAlistReduce l = .ok m) (key : k) :
    amount m key = owed l key ∧ (key ∈ m ↔ key ∈ l.map (·.1)) := by
  have := addEntries_eq_ok h key
  simpa using this

theorem ofAlistReduce_ok {l : List (k × Fee)} (hlt : ∀ key, owed l key < 2 ^ 64) : ∃ m, ofAlistReduce l = .ok m :=
  addEntries_ok fun key => by
    rw [amount_empty, Nat.zero_add]
    exact hlt key

/-! ## Totals -/

/-- What the entries owe to the keys that a predicate picks. -/
def totalOwed (p : k → Bool) (l : List (k × Fee)) : Nat := ((l.filter fun e => p e.1).map fun e => e.2.val).sum

/-- The total that a map holds for the keys that a predicate picks. -/
def total (p : k → Bool) (m : FeeMap k) : Nat := totalOwed p m.toList

omit [LinearOrder k] in
theorem totalOwed_cons (p : k → Bool) (e : k × Fee) (l : List (k × Fee)) :
    totalOwed p (e :: l) = (if p e.1 then e.2.val else 0) + totalOwed p l := by
  rw [totalOwed, List.filter_cons]
  split <;> simp [totalOwed]

theorem total_filter (p : k → Bool) (m : FeeMap k) :
    total (fun _ => true) (m.filter fun key _ => p key) = total p m := by
  rw [total, totalOwed, ExtTreeMap.toList_filter, List.filter_true, total, totalOwed]

/-- A total of entries is a sum over any set of keys that contains theirs. -/
theorem totalOwed_eq_sum (p : k → Bool) : ∀ (l : List (k × Fee)) {S : Finset k}, (∀ e ∈ l, e.1 ∈ S) →
    totalOwed p l = ∑ key ∈ S, if p key then owed l key else 0
  | [], S, _ => by simp [totalOwed]
  | e :: l, S, hS => by
    have hsplit : ∀ key, (if p key then owed (e :: l) key else 0) =
        (if e.1 = key then (if p key then e.2.val else 0) else 0) + if p key then owed l key else 0 := by
      intro key
      rw [owed_cons]
      by_cases hp : p key = true <;> by_cases hkey : e.1 = key <;> simp [hp, hkey]
    rw [totalOwed_cons, totalOwed_eq_sum p l fun e he => hS e (by simp [he]),
      Finset.sum_congr rfl fun key _ => hsplit key, Finset.sum_add_distrib, Finset.sum_ite_eq,
      if_pos (hS e (by simp))]

theorem owed_of_not_mem {l : List (k × Fee)} {key : k} (h : ∀ e ∈ l, e.1 ≠ key) : owed l key = 0 := by
  rw [owed, List.filter_eq_nil_iff.2 fun e he => by simpa using h e he]
  rfl

theorem owed_of_mem : ∀ {l : List (k × Fee)}, (l.Pairwise fun a b => ¬ compare a.1 b.1 = .eq) →
    ∀ {e : k × Fee}, e ∈ l → owed l e.1 = e.2.val
  | a :: l, hl, e, he => by
    obtain ⟨ha, hl⟩ := List.pairwise_cons.1 hl
    rw [owed_cons]
    rcases List.mem_cons.1 he with rfl | he
    · rw [if_pos rfl, owed_of_not_mem fun b hb heq => ha b hb (compare_eq_iff_eq.2 heq.symm), Nat.add_zero]
    · rw [if_neg fun heq => ha e he (compare_eq_iff_eq.2 heq), Nat.zero_add, owed_of_mem hl he]

theorem owed_toList (m : FeeMap k) (key : k) : owed m.toList key = amount m key := by
  cases hkey : m[key]? with
  | none =>
    rw [amount_of_none hkey]
    refine owed_of_not_mem fun e he heq => ?_
    rw [ExtTreeMap.mem_toList_iff_getElem?_eq_some (k := e.1) (v := e.2), heq, hkey] at he
    cases he
  | some fee =>
    rw [amount_of_some hkey]
    exact owed_of_mem (e := (key, fee)) ExtTreeMap.distinct_keys_toList
      (ExtTreeMap.mem_toList_iff_getElem?_eq_some.2 hkey)

theorem of_mem_toList {m : FeeMap k} {e : k × Fee} (he : e ∈ m.toList) : e.1 ∈ m ∧ amount m e.1 = e.2.val := by
  have hget : m[e.1]? = some e.2 := ExtTreeMap.mem_toList_iff_getElem?_eq_some.1 he
  refine ⟨?_, amount_of_some hget⟩
  rw [ExtTreeMap.mem_iff_isSome_getElem?, hget]
  rfl

/-- A total over a map is a sum over any set of keys that contains its. -/
theorem total_eq_sum (p : k → Bool) (m : FeeMap k) {S : Finset k} (hS : ∀ key ∈ m, key ∈ S) :
    total p m = ∑ key ∈ S, if p key then amount m key else 0 := by
  rw [total, totalOwed_eq_sum p m.toList]
  · exact Finset.sum_congr rfl fun key _ => by rw [owed_toList]
  · exact fun e he => hS e.1 (of_mem_toList he).1

/-- Totals of maps and entries that add up to other entries, for each key that
is picked. -/
theorem total_add_totalOwed (p : k → Bool) {m : FeeMap k} {l l' : List (k × Fee)}
    (h : ∀ key, p key → amount m key + owed l key = owed l' key) : total p m + totalOwed p l = totalOwed p l' := by
  let S := m.keys.toFinset ∪ (l.map (·.1)).toFinset ∪ (l'.map (·.1)).toFinset
  have hm : ∀ key ∈ m, key ∈ S := by
    intro key hkey
    simp [S, hkey]
  have hl : ∀ e ∈ l, e.1 ∈ S := by
    intro e he
    simp only [S, Finset.mem_union, List.mem_toFinset, List.mem_map]
    exact .inl (.inr ⟨e, he, rfl⟩)
  have hl' : ∀ e ∈ l', e.1 ∈ S := by
    intro e he
    simp only [S, Finset.mem_union, List.mem_toFinset, List.mem_map]
    exact .inr ⟨e, he, rfl⟩
  rw [total_eq_sum p m hm, totalOwed_eq_sum p l hl, totalOwed_eq_sum p l' hl', ← Finset.sum_add_distrib]
  refine Finset.sum_congr rfl fun key _ => ?_
  split
  next hp => exact h key hp
  next => rfl

/-- Maps that hold what entries owe have their totals. -/
theorem total_eq_totalOwed (p : k → Bool) {m : FeeMap k} {l : List (k × Fee)}
    (h : ∀ key, amount m key = owed l key) : total p m = totalOwed p l :=
  total_add_totalOwed p (l := []) fun key _ => h key

end FeeMap

end Mina
