/-
What a sender gets through (`limits_iff`).

A record keeps the operations of its key within the interval, but the first
one: it makes the record, and its score is not subtracted (`Keeps`). So the
limit holds as long as what the first operation took is left over (`Covers`).
-/
import Mina.NetworkPool.RateLimiter

namespace Mina.RateLimiter

/-! ## Windows -/

/-- The score of the operations in the window from `a`. -/
def within (a : Time) (ops : List (Int × Time)) : Int :=
  ((ops.filter fun e => a ≤ e.2 ∧ e.2 ≤ a + interval).map Prod.fst).sum

/-- Operations in the order of their times, up to now. -/
structure Timely (ops : List (Int × Time)) (now : Time) : Prop where
  sorted : ops.Pairwise fun e f => e.2 ≤ f.2
  past : ∀ e ∈ ops, e.2 ≤ now
  nonneg : ∀ e ∈ ops, 0 ≤ e.1

theorem Timely.nil {now : Time} : Timely [] now := ⟨.nil, by simp, by simp⟩

theorem Timely.later {ops : List (Int × Time)} {last now : Time} (h : Timely ops last) (hnow : last ≤ now) :
    Timely ops now :=
  ⟨h.sorted, fun e he => (h.past e he).trans hnow, h.nonneg⟩

theorem Timely.snoc {ops : List (Int × Time)} {now : Time} (h : Timely ops now) {score : Int}
    (hscore : 0 ≤ score) : Timely (ops ++ [(score, now)]) now := by
  refine ⟨?_, fun e he => ?_, fun e he => ?_⟩
  · rw [List.pairwise_append]
    refine ⟨h.sorted, List.pairwise_singleton _ _, fun e he f hf => ?_⟩
    rw [List.mem_singleton.1 hf]
    exact h.past e he
  · rcases List.mem_append.1 he with he | he
    · exact h.past e he
    · rw [List.mem_singleton.1 he]
  · rcases List.mem_append.1 he with he | he
    · exact h.nonneg e he
    · rw [List.mem_singleton.1 he]
      exact hscore

theorem within_nil (a : Time) : within a [] = 0 := rfl

theorem within_append (a : Time) (xs ys : List (Int × Time)) :
    within a (xs ++ ys) = within a xs + within a ys := by
  rw [within, List.filter_append, List.map_append, List.sum_append]
  rfl

theorem within_cons (a : Time) (e : Int × Time) (ops : List (Int × Time)) :
    within a (e :: ops) = (if a ≤ e.2 ∧ e.2 ≤ a + interval then e.1 else 0) + within a ops := by
  unfold within
  rw [List.filter_cons]
  by_cases h : a ≤ e.2 ∧ e.2 ≤ a + interval
  · rw [if_pos (decide_eq_true h), if_pos h, List.map_cons, List.sum_cons]
  · rw [if_neg (by simpa using h), if_neg h, Int.zero_add]

/-- Of scores that are not negative, a wider window has more. -/
theorem within_le {a b : Time} {ops : List (Int × Time)} (hnonneg : ∀ e ∈ ops, 0 ≤ e.1)
    (h : ∀ e ∈ ops, a ≤ e.2 → e.2 ≤ a + interval → b ≤ e.2 ∧ e.2 ≤ b + interval) :
    within a ops ≤ within b ops := by
  induction ops with
  | nil => exact le_refl _
  | cons e ops ih =>
    have htail := ih (fun f hf => hnonneg f (List.mem_cons_of_mem _ hf)) fun f hf =>
      h f (List.mem_cons_of_mem _ hf)
    have he := hnonneg e List.mem_cons_self
    rw [within_cons, within_cons]
    by_cases hin : a ≤ e.2 ∧ e.2 ≤ a + interval
    · rw [if_pos hin, if_pos (h e List.mem_cons_self hin.1 hin.2)]
      omega
    · rw [if_neg hin]
      split <;> omega

/-- All of them are in the window. -/
theorem within_all {a : Time} {ops : List (Int × Time)} (h : ∀ e ∈ ops, a ≤ e.2 ∧ e.2 ≤ a + interval) :
    within a ops = (ops.map Prod.fst).sum := by
  rw [within, List.filter_eq_self.2 fun e he => decide_eq_true (h e he)]

theorem within_none {a : Time} {ops : List (Int × Time)} (h : ∀ e ∈ ops, ¬ (a ≤ e.2 ∧ e.2 ≤ a + interval)) :
    within a ops = 0 := by
  rw [within, List.filter_eq_nil_iff.2 fun e he => by simpa using h e he]
  rfl

/-- No window holds more than the capacity. -/
def Limited (capacity : Int) (ops : List (Int × Time)) : Prop := ∀ a, within a ops ≤ capacity

/-- Of the windows with an operation the one that ends at it holds most. -/
theorem limited_snoc {capacity score : Int} {now : Time} {ops : List (Int × Time)} (h : Timely ops now)
    (hscore : 0 ≤ score) : Limited capacity (ops ++ [(score, now)]) ↔
      Limited capacity ops ∧ within (now - interval) ops + score ≤ capacity := by
  have hsnoc : ∀ a, within a (ops ++ [(score, now)]) =
      within a ops + if a ≤ now ∧ now ≤ a + interval then score else 0 := by
    intro a
    rw [within_append, within_cons, within_nil, Int.add_zero]
  have hinterval : (0 : Time) ≤ interval := by
    rw [interval]
    norm_num
  have hlast : now - interval ≤ now ∧ now ≤ now - interval + interval := by
    constructor <;> linarith
  constructor
  · intro hlimited
    refine ⟨fun a => ?_, ?_⟩
    · have ha := hlimited a
      rw [hsnoc] at ha
      split at ha <;> omega
    · have hend := hlimited (now - interval)
      rw [hsnoc, if_pos hlast] at hend
      exact hend
  · intro hlimited a
    obtain ⟨hbefore, hend⟩ := hlimited
    rw [hsnoc]
    by_cases ha : a ≤ now ∧ now ≤ a + interval
    · have hle : within a ops ≤ within (now - interval) ops := by
        refine within_le h.nonneg fun e he hae _ => ⟨by linarith [ha.2], ?_⟩
        linarith [h.past e he]
      rw [if_pos ha]
      omega
    · rw [if_neg ha]
      have := hbefore a
      omega

/-! ## Records -/

/-- What is cleared is old, and gives its score back. -/
theorem clear_spec (now : Time) (remaining : Int) (elts : List (Int × Time)) :
    ∃ old, elts = old ++ (Record.clear now remaining elts).elts ∧ (∀ e ∈ old, interval < now - e.2) ∧
      (Record.clear now remaining elts).remainingCapacity = remaining + (old.map Prod.fst).sum ∧
      ∀ e, (Record.clear now remaining elts).elts.head? = some e → now - e.2 ≤ interval := by
  induction elts generalizing remaining with
  | nil => exact ⟨[], rfl, by simp, by simp [Record.clear], by simp [Record.clear]⟩
  | cons e elts ih =>
    rw [Record.clear]
    split
    next hold =>
      obtain ⟨old, helts, hall, hremaining, hhead⟩ := ih (remaining + e.1)
      refine ⟨e :: old, congrArg (e :: ·) helts, fun f hf => ?_, ?_, hhead⟩
      · rcases List.mem_cons.1 hf with rfl | hf
        · exact hold
        · exact hall f hf
      · rw [hremaining, List.map_cons, List.sum_cons]
        omega
    next hnew =>
      refine ⟨[], rfl, by simp, by simp, fun f hf => ?_⟩
      obtain rfl : e = f := Option.some.inj hf
      exact not_lt.1 hnew

/-- The record has the operations of its key that are not old, but the first
one, and their scores are subtracted. -/
structure Keeps (capacity : Int) (r : Record) (ops : List (Int × Time)) (now : Time) : Prop where
  split : ∃ first old, ops = first :: (old ++ r.elts) ∧ ∀ e ∈ old, interval < now - e.2
  total : r.remainingCapacity + (r.elts.map Prod.fst).sum = capacity
  room : 0 ≤ r.remainingCapacity

section Keeps

variable {capacity score : Int} {r : Record} {ops : List (Int × Time)} {last now : Time}

theorem sum_nonneg {xs : List (Int × Time)} (h : ∀ e ∈ xs, 0 ≤ e.1) : 0 ≤ (xs.map Prod.fst).sum := by
  induction xs with
  | nil => exact le_refl _
  | cons e xs ih =>
    have htail := ih fun f hf => h f (List.mem_cons_of_mem _ hf)
    have he := h e List.mem_cons_self
    rw [List.map_cons, List.sum_cons]
    omega

theorem Keeps.later (h : Keeps capacity r ops last) (hnow : last ≤ now) : Keeps capacity r ops now := by
  obtain ⟨first, old, hops, hold⟩ := h.split
  exact ⟨⟨first, old, hops, fun e he => by linarith [hold e he]⟩, h.total, h.room⟩

theorem Keeps.clear (h : Keeps capacity r ops now) (hops : Timely ops now) :
    Keeps capacity (r.clearOldEntries now) ops now := by
  obtain ⟨first, old, heq, hold⟩ := h.split
  obtain ⟨cleared, helts, hcleared, hremaining, -⟩ := clear_spec now r.remainingCapacity r.elts
  have hsum : (r.elts.map Prod.fst).sum = (cleared.map Prod.fst).sum +
      ((r.clearOldEntries now).elts.map Prod.fst).sum := by
    rw [← List.sum_append, ← List.map_append]
    exact congrArg (fun xs => (xs.map Prod.fst).sum) helts
  have hnonneg : 0 ≤ (cleared.map Prod.fst).sum := by
    refine sum_nonneg fun e he => hops.nonneg e ?_
    rw [heq, helts]
    simp [he]
  have htotal := h.total
  have hroom := h.room
  have hremaining : (r.clearOldEntries now).remainingCapacity = r.remainingCapacity + (cleared.map Prod.fst).sum :=
    hremaining
  refine ⟨⟨first, old ++ cleared, ?_, fun e he => ?_⟩, by omega, by omega⟩
  · rw [heq, List.append_assoc]
    exact congrArg (fun xs => first :: (old ++ xs)) helts
  · rcases List.mem_append.1 he with he | he
    · exact hold e he
    · exact hcleared e he

/-- Nothing that is left is old. -/
theorem Keeps.recent (h : Keeps capacity r ops now) (hops : Timely ops now) :
    ∀ e ∈ (r.clearOldEntries now).elts, now - e.2 ≤ interval := by
  obtain ⟨first, old, heq, -⟩ := (h.clear hops).split
  obtain ⟨-, -, -, -, hhead⟩ := clear_spec now r.remainingCapacity r.elts
  have hsorted := hops.sorted
  rw [heq, List.pairwise_cons, List.pairwise_append] at hsorted
  have hkept := hsorted.2.2.1
  have hhead : ∀ e, (r.clearOldEntries now).elts.head? = some e → now - e.2 ≤ interval := hhead
  intro e he
  cases helts : (r.clearOldEntries now).elts with
  | nil =>
    rw [helts] at he
    cases he
  | cons f rest =>
    have hf := hhead f (by rw [helts]; rfl)
    rw [helts] at he hkept
    rcases List.mem_cons.1 he with rfl | he
    · exact hf
    · linarith [(List.pairwise_cons.1 hkept).1 e he]

/-- What was used in the interval up to now: what the record has subtracted,
and the score of the first operation if it is not old. -/
theorem Keeps.used (h : Keeps capacity r ops now) (hops : Timely ops now) : ∃ first, ops.head? = some first ∧
    within (now - interval) ops =
      (if now - first.2 ≤ interval then first.1 else 0) +
        (capacity - (r.clearOldEntries now).remainingCapacity) := by
  obtain ⟨first, old, heq, hold⟩ := (h.clear hops).split
  have htotal := (h.clear hops).total
  have hrecent := h.recent hops
  have hpast : ∀ e ∈ ops, e.2 ≤ now := hops.past
  rw [heq] at hpast
  refine ⟨first, by rw [heq]; rfl, ?_⟩
  have hnone : within (now - interval) old = 0 := by
    refine within_none fun e he hin => ?_
    linarith [hold e he, hin.1]
  have hall : within (now - interval) (r.clearOldEntries now).elts =
      ((r.clearOldEntries now).elts.map Prod.fst).sum := by
    refine within_all fun e he => ⟨by linarith [hrecent e he], ?_⟩
    linarith [hpast e (List.mem_cons_of_mem _ (List.mem_append_right _ he))]
  have hfirst : (now - interval ≤ first.2 ∧ first.2 ≤ now - interval + interval) ↔ now - first.2 ≤ interval := by
    have hle := hpast first List.mem_cons_self
    constructor
    · intro hin
      linarith [hin.1]
    · intro hin
      exact ⟨by linarith, by linarith⟩
  rw [heq, within_cons, within_append, hnone, hall, if_congr hfirst rfl rfl]
  omega

theorem Keeps.add (h : Keeps capacity r ops now) (hops : Timely ops now) (hscore : 0 ≤ score)
    (hfits : score ≤ r.remainingCapacity) : Keeps capacity (r.add now score).1 (ops ++ [(score, now)]) now := by
  obtain ⟨first, old, heq, hold⟩ := h.split
  have htotal := h.total
  rw [Record.add, if_pos (by omega)]
  refine Keeps.clear ⟨⟨first, old, ?_, hold⟩, ?_, by simp only; omega⟩ (hops.snoc hscore)
  · rw [heq]
    simp
  · rw [List.map_append, List.sum_append, List.map_singleton, List.sum_singleton]
    simp only
    omega

end Keeps

/-! ## Tables -/

section Table

variable {K : Type} [DecidableEq K] {k k' : K} {t : LruTable K} {ops : K → List (Int × Time)} {last now : Time}
  {score : Int}

theorem lookup_eq_none {table : List (K × Record)} : lookup table k = none ↔ k ∉ table.map Prod.fst := by
  rw [lookup, Option.map_eq_none_iff, List.find?_eq_none]
  constructor
  · intro h hk
    obtain ⟨e, he, hek⟩ := List.mem_map.1 hk
    exact h e he (decide_eq_true hek)
  · intro h e he hek
    exact h (List.mem_map.2 ⟨e, he, of_decide_eq_true hek⟩)

theorem lookup_append (xs ys : List (K × Record)) : lookup (xs ++ ys) k = (lookup xs k).or (lookup ys k) := by
  rw [lookup, List.find?_append, lookup, lookup, Option.map_or]

theorem lookup_singleton (r : Record) : lookup [(k', r)] k = if k' = k then some r else none := by
  by_cases h : k' = k <;> simp [lookup, h]

theorem lookup_moveToBack (table : List (K × Record)) (r : Record) :
    lookup (moveToBack table k' r) k = if k' = k then some r else lookup table k := by
  rw [moveToBack, lookup_append, lookup_singleton]
  by_cases h : k' = k
  · have hnone : lookup (table.filter fun e => e.1 ≠ k') k = none := by
      rw [lookup_eq_none]
      simp [h]
    rw [hnone, Option.none_or, if_pos h, if_pos h]
  · have hsame : lookup (table.filter fun e => e.1 ≠ k') k = lookup table k := by
      have hkey : (fun e : K × Record => decide (decide (e.1 ≠ k') = true ∧ decide (e.1 = k) = true)) =
          fun e => decide (e.1 = k) := by
        funext e
        by_cases he : e.1 = k
        · simp [he, Ne.symm h]
        · simp [he]
      rw [lookup, List.find?_filter, hkey, lookup]
    rw [hsame, if_neg h, if_neg h, Option.or_none]

theorem nodup_moveToBack {table : List (K × Record)} (h : (table.map Prod.fst).Nodup) (r : Record) :
    ((moveToBack table k r).map Prod.fst).Nodup := by
  rw [moveToBack, List.map_append, List.nodup_append]
  refine ⟨h.sublist (List.filter_sublist.map _), List.nodup_singleton _, ?_⟩
  intro a ha b hb
  rw [List.map_singleton, List.mem_singleton] at hb
  obtain ⟨e, he, rfl⟩ := List.mem_map.1 ha
  rw [hb]
  exact of_decide_eq_true (List.mem_filter.1 he).2

/-- A key has a record as soon as one of its operations is accepted. -/
structure Inv (t : LruTable K) (ops : K → List (Int × Time)) (now : Time) : Prop where
  absent : ∀ k, lookup t.table k = none → ops k = []
  kept : ∀ k r, lookup t.table k = some r → Keeps t.initialCapacity r (ops k) now
  timely : ∀ k, Timely (ops k) now
  nodup : (t.table.map Prod.fst).Nodup

theorem Inv.create (capacity : Int) : Inv (LruTable.create capacity) (fun _ : K => []) now where
  absent _ _ := rfl
  kept k r h := by cases h
  timely _ := .nil
  nodup := .nil

theorem Inv.later (h : Inv t ops last) (hnow : last ≤ now) : Inv t ops now where
  absent := h.absent
  kept k r hr := (h.kept k r hr).later hnow
  timely k := (h.timely k).later hnow
  nodup := h.nodup

theorem hasCapacity_capacity : (t.hasCapacity k now score).1.initialCapacity = t.initialCapacity := by
  unfold LruTable.hasCapacity
  split <;> rfl

theorem add_capacity : (t.add k now score).1.initialCapacity = t.initialCapacity := by
  unfold LruTable.add
  split <;> rfl

theorem lookup_hasCapacity : lookup (t.hasCapacity k now score).1.table k' =
    if k = k' then (lookup t.table k').map fun r => r.clearOldEntries now else lookup t.table k' := by
  unfold LruTable.hasCapacity
  split
  next hnone =>
    by_cases hk : k = k'
    · rw [if_pos hk, ← hk, hnone]
      rfl
    · rw [if_neg hk]
  next r hr =>
    rw [lookup_moveToBack]
    by_cases hk : k = k'
    · rw [if_pos hk, if_pos hk, ← hk, hr]
      rfl
    · rw [if_neg hk, if_neg hk]

theorem hasCapacity_iff : (t.hasCapacity k now score).2 = true ↔
    ∀ r, lookup t.table k = some r → score ≤ (r.clearOldEntries now).remainingCapacity := by
  unfold LruTable.hasCapacity
  cases hlookup : lookup t.table k with
  | none => exact ⟨fun _ r hr => (by cases hr), fun _ => rfl⟩
  | some r =>
    simp only [decide_eq_true_eq, Option.some.injEq]
    constructor
    · intro h r' hr'
      rw [← hr']
      omega
    · intro h
      have := h r rfl
      omega

theorem Inv.hasCapacity (h : Inv t ops now) (k : K) (score : Int) : Inv (t.hasCapacity k now score).1 ops now where
  absent k' hk' := by
    rw [lookup_hasCapacity] at hk'
    split at hk'
    · exact h.absent k' (Option.map_eq_none_iff.1 hk')
    · exact h.absent k' hk'
  kept k' r hr := by
    rw [hasCapacity_capacity]
    rw [lookup_hasCapacity] at hr
    split at hr
    · obtain ⟨r', hr', rfl⟩ := Option.map_eq_some_iff.1 hr
      exact (h.kept k' r' hr').clear (h.timely k')
    · exact h.kept k' r hr
  timely := h.timely
  nodup := by
    unfold LruTable.hasCapacity
    split
    · exact h.nodup
    · exact nodup_moveToBack h.nodup _

theorem lookup_add (hroom : lookup t.table k = none → t.table.length < maxSize) :
    lookup (t.add k now score).1.table k' =
      if k = k' then
        some (((lookup t.table k).map fun r => (r.add now score).1).getD ⟨t.initialCapacity, []⟩)
      else lookup t.table k' := by
  unfold LruTable.add
  split
  next hnone =>
    simp only
    rw [if_neg (by have := hroom hnone; omega), lookup_append, lookup_singleton]
    by_cases hk : k = k'
    · rw [if_pos hk, if_pos hk, ← hk, hnone]
      rfl
    · rw [if_neg hk, if_neg hk, Option.or_none]
  next r hr =>
    rw [lookup_moveToBack, hr]
    rfl

theorem Inv.add (h : Inv t ops now) (hscore : 0 ≤ score) (hcapacity : 0 ≤ t.initialCapacity)
    (hroom : lookup t.table k = none → t.table.length < maxSize)
    (hfits : ∀ r, lookup t.table k = some r → score ≤ r.remainingCapacity) :
    Inv (t.add k now score).1 (Function.update ops k (ops k ++ [(score, now)])) now where
  absent k' hk' := by
    rw [lookup_add hroom] at hk'
    split at hk'
    next => cases hk'
    next hk => rw [Function.update_of_ne (Ne.symm hk), h.absent k' hk']
  kept k' r hr := by
    rw [add_capacity]
    rw [lookup_add hroom] at hr
    split at hr
    next hk =>
      subst hk
      rw [Function.update_self]
      cases hlookup : lookup t.table k with
      | none =>
        rw [hlookup] at hr
        cases hr
        rw [h.absent k hlookup]
        exact ⟨⟨_, [], rfl, by simp⟩, by simp, hcapacity⟩
      | some r' =>
        rw [hlookup] at hr
        cases hr
        exact (h.kept k r' hlookup).add (h.timely k) hscore (hfits r' hlookup)
    next hk =>
      rw [Function.update_of_ne (Ne.symm hk)]
      exact h.kept k' r hr
  timely k' := by
    by_cases hk : k' = k
    · rw [hk, Function.update_self]
      exact (h.timely k).snoc hscore
    · rw [Function.update_of_ne hk]
      exact h.timely k'
  nodup := by
    unfold LruTable.add
    split
    next hnone =>
      simp only
      rw [if_neg (by have := hroom hnone; omega), List.map_append, List.map_singleton, List.nodup_append]
      refine ⟨h.nodup, List.nodup_singleton _, fun a ha b hb hab => ?_⟩
      rw [List.mem_singleton.1 hb] at hab
      rw [hab] at ha
      exact lookup_eq_none.1 hnone ha
    next => exact nodup_moveToBack h.nodup _

/-- With few keys a new one does not push out another. -/
theorem Inv.room (h : Inv t ops now) {keys : Finset K} (hkeys : ∀ k, ops k ≠ [] → k ∈ keys)
    (hcard : keys.card ≤ maxSize) (hk : k ∈ keys) (hnone : lookup t.table k = none) :
    t.table.length < maxSize := by
  have hmem : ∀ k' ∈ t.table.map Prod.fst, ops k' ≠ [] := by
    intro k' hk' hnil
    cases hr : lookup t.table k' with
    | none => exact lookup_eq_none.1 hr hk'
    | some r =>
      obtain ⟨first, old, heq, -⟩ := (h.kept k' r hr).split
      rw [hnil] at heq
      cases heq
  have hsub : insert k (t.table.map Prod.fst).toFinset ⊆ keys := by
    intro k' hk'
    rcases Finset.mem_insert.1 hk' with rfl | hk'
    · exact hk
    · exact hkeys k' (hmem k' (List.mem_toFinset.1 hk'))
  have hle := Finset.card_le_card hsub
  rw [Finset.card_insert_of_notMem (by rw [List.mem_toFinset]; exact lookup_eq_none.1 hnone),
    List.toFinset_card_of_nodup h.nodup, List.length_map] at hle
  omega

/-- What the first operation took is left over, as long as it is not old. -/
def Covers (t : LruTable K) (ops : List (Int × Time)) (k : K) (now : Time) (score : Int) : Prop :=
  (lookup t.table k = none → score ≤ t.initialCapacity) ∧
    ∀ r first, lookup t.table k = some r → ops.head? = some first → now - first.2 ≤ interval →
      first.1 ≤ (r.clearOldEntries now).remainingCapacity - score

/-- Then, and only then, the operation stays within the capacity. -/
theorem covers_iff (h : Inv t ops now) (hfits : (t.hasCapacity k now score).2 = true) :
    Covers t (ops k) k now score ↔ within (now - interval) (ops k) + score ≤ t.initialCapacity := by
  cases hlookup : lookup t.table k with
  | none =>
    rw [h.absent k hlookup, within_nil, Int.zero_add, Covers]
    exact ⟨fun hc => hc.1 hlookup, fun hle => ⟨fun _ => hle, fun r first hr => by rw [hlookup] at hr; cases hr⟩⟩
  | some r =>
    obtain ⟨first, hfirst, hused⟩ := (h.kept k r hlookup).used (h.timely k)
    have hle := hasCapacity_iff.1 hfits r hlookup
    rw [hused]
    constructor
    · intro hc
      split
      next hnew =>
        have := hc.2 r first hlookup hfirst hnew
        omega
      next => omega
    · intro hsum
      refine ⟨fun hnone => ?_, fun r' first' hr' hfirst' hnew => ?_⟩
      · rw [hlookup] at hnone
        cases hnone
      · cases hlookup.symm.trans hr'
        cases hfirst.symm.trans hfirst'
        rw [if_pos hnew] at hsum
        omega

/-- Without capacity the operation would not stay within it. -/
theorem exceeds_of_full (h : Inv t ops now) (hfull : (t.hasCapacity k now score).2 = false) :
    t.initialCapacity < within (now - interval) (ops k) + score := by
  have hnot : ¬ ∀ r, lookup t.table k = some r → score ≤ (r.clearOldEntries now).remainingCapacity := by
    rw [← hasCapacity_iff, hfull]
    exact Bool.false_ne_true
  push Not at hnot
  obtain ⟨r, hlookup, hlt⟩ := hnot
  obtain ⟨first, hfirst, hused⟩ := (h.kept k r hlookup).used (h.timely k)
  have hnonneg : 0 ≤ first.1 := (h.timely k).nonneg first (List.mem_of_mem_head? hfirst)
  rw [hused]
  split <;> omega

end Table

/-! ## Runs -/

section Runs

variable {Ip Id : Type} [DecidableEq Ip] [DecidableEq Id]

/-- The operations with the key that were answered `withinCapacity`. -/
def passed {K : Type} [DecidableEq K] (key : Call Ip Id → Option K) (k : K) (trace : List (Call Ip Id × Answer)) :
    List (Int × Time) :=
  (trace.filter fun e => e.2 = .withinCapacity ∧ key e.1 = some k).map fun e => (e.1.score, e.1.now)

/-- In the window that ends at the call it would be too much. -/
def Exceeds (capacity : Int) (trace : List (Call Ip Id × Answer)) (c : Call Ip Id) : Prop :=
  (∃ ip, c.ip = some ip ∧ capacity < within (c.now - interval) (passed Call.ip ip trace) + c.score) ∨
    ∃ id, c.peerId = some id ∧ capacity < within (c.now - interval) (passed Call.peerId id trace) + c.score

structure Limits (capacity : Int) (trace : List (Call Ip Id × Answer)) : Prop where
  byIp : ∀ ip a, within a (passed Call.ip ip trace) ≤ capacity
  byPeerId : ∀ id a, within a (passed Call.peerId id trace) ≤ capacity
  refused : ∀ before e after, trace = before ++ e :: after → e.2 = .capacityExceeded → Exceeds capacity before e.1

/-- If the call has capacity, it is covered in both tables. -/
def Run.Covers (s : Run Ip Id) (c : Call Ip Id) : Prop :=
  ∀ peer, c.sender = .remote peer → (s.limiter.byIp.hasCapacity peer.ip c.now c.score).2 = true →
    (s.limiter.byPeerId.hasCapacity peer.peerId c.now c.score).2 = true →
      RateLimiter.Covers s.limiter.byIp (passed Call.ip peer.ip s.trace) peer.ip c.now c.score ∧
        RateLimiter.Covers s.limiter.byPeerId (passed Call.peerId peer.peerId s.trace) peer.peerId c.now c.score

def Covered (capacity : Int) (calls : List (Call Ip Id)) : Prop :=
  ∀ before c after, calls = before ++ c :: after → (run capacity before).Covers c

/-- What holds of the elements and what stands before them, of one more. -/
theorem forall_split_snoc {α : Type} {p : List α → α → Prop} {l : List α} {y : α} :
    (∀ before x after, l ++ [y] = before ++ x :: after → p before x) ↔
      (∀ before x after, l = before ++ x :: after → p before x) ∧ p l y := by
  constructor
  · intro h
    refine ⟨fun before x after hl => h before x (after ++ [y]) ?_, h l y [] rfl⟩
    rw [hl, List.append_assoc, List.cons_append]
  · intro h before x after hl
    obtain ⟨hall, hlast⟩ := h
    rcases List.eq_nil_or_concat after with rfl | ⟨after, z, rfl⟩
    · obtain ⟨rfl, hyx⟩ := List.append_inj' hl rfl
      cases hyx
      exact hlast
    · rw [List.concat_eq_append, ← List.cons_append, ← List.append_assoc] at hl
      exact hall before x after (List.append_inj' hl rfl).1

section Passed

omit [DecidableEq Ip] [DecidableEq Id]

variable {K : Type} [DecidableEq K] {key : Call Ip Id → Option K} {trace : List (Call Ip Id × Answer)}
  {c : Call Ip Id} {a : Answer} {capacity : Int}

theorem passed_snoc (k : K) : passed key k (trace ++ [(c, a)]) =
    passed key k trace ++ if a = .withinCapacity ∧ key c = some k then [(c.score, c.now)] else [] := by
  by_cases h : a = .withinCapacity ∧ key c = some k <;> simp [passed, h]

theorem passed_same (h : a = .withinCapacity → key c = none) (k : K) :
    passed key k (trace ++ [(c, a)]) = passed key k trace := by
  rw [passed_snoc, if_neg, List.append_nil]
  intro hin
  rw [h hin.1] at hin
  cases hin.2

theorem passed_update {k : K} (h : key c = some k) : (fun k' => passed key k' (trace ++ [(c, .withinCapacity)])) =
    Function.update (fun k' => passed key k' trace) k (passed key k trace ++ [(c.score, c.now)]) := by
  funext k'
  rw [passed_snoc]
  by_cases hk : k' = k
  · rw [hk, Function.update_self, if_pos ⟨rfl, h⟩]
  · rw [Function.update_of_ne hk, if_neg, List.append_nil]
    intro hin
    rw [h] at hin
    exact hk (Option.some.inj hin.2).symm

theorem limited_call (htimely : ∀ k, Timely (passed key k trace) c.now) (hscore : 0 ≤ c.score) :
    (∀ k, Limited capacity (passed key k (trace ++ [(c, a)]))) ↔ (∀ k, Limited capacity (passed key k trace)) ∧
      (a = .withinCapacity → ∀ k, key c = some k →
        within (c.now - interval) (passed key k trace) + c.score ≤ capacity) := by
  constructor
  · intro h
    have hstep : ∀ k, a = .withinCapacity ∧ key c = some k → Limited capacity (passed key k trace) ∧
        within (c.now - interval) (passed key k trace) + c.score ≤ capacity := by
      intro k hk
      have hlimited := h k
      rw [passed_snoc, if_pos hk, limited_snoc (htimely k) hscore] at hlimited
      exact hlimited
    refine ⟨fun k => ?_, fun ha k hk => (hstep k ⟨ha, hk⟩).2⟩
    by_cases hk : a = .withinCapacity ∧ key c = some k
    · exact (hstep k hk).1
    · have hlimited := h k
      rw [passed_snoc, if_neg hk, List.append_nil] at hlimited
      exact hlimited
  · intro h k
    obtain ⟨hbefore, hend⟩ := h
    rw [passed_snoc]
    by_cases hk : a = .withinCapacity ∧ key c = some k
    · rw [if_pos hk, limited_snoc (htimely k) hscore]
      exact ⟨hbefore k, hend hk.1 k hk.2⟩
    · rw [if_neg hk, List.append_nil]
      exact hbefore k

end Passed

variable {capacity : Int} {s : Run Ip Id} {c : Call Ip Id}

/-- The tables keep the operations that the trace has. -/
structure Standing (capacity : Int) (s : Run Ip Id) (now : Time) : Prop where
  byIp : Inv s.limiter.byIp (fun ip => passed Call.ip ip s.trace) now
  byPeerId : Inv s.limiter.byPeerId (fun id => passed Call.peerId id s.trace) now
  ipCapacity : s.limiter.byIp.initialCapacity = capacity
  idCapacity : s.limiter.byPeerId.initialCapacity = capacity

/-- One more answer: a call within the capacity stays in it, and one that is
refused would not. -/
theorem limits_snoc {a : Answer} (h : Standing capacity s c.now) (hscore : 0 ≤ c.score) :
    Limits capacity (s.trace ++ [(c, a)]) ↔ Limits capacity s.trace ∧
      (a = .withinCapacity →
        (∀ ip, c.ip = some ip → within (c.now - interval) (passed Call.ip ip s.trace) + c.score ≤ capacity) ∧
          ∀ id, c.peerId = some id →
            within (c.now - interval) (passed Call.peerId id s.trace) + c.score ≤ capacity) ∧
      (a = .capacityExceeded → Exceeds capacity s.trace c) := by
  have hip : _ ↔ (∀ ip, Limited capacity _) ∧ _ := limited_call (a := a) (c := c) h.byIp.timely hscore
  have hid : _ ↔ (∀ id, Limited capacity _) ∧ _ := limited_call (a := a) (c := c) h.byPeerId.timely hscore
  have hrefused := forall_split_snoc (p := fun before e => e.2 = .capacityExceeded → Exceeds capacity before e.1)
    (l := s.trace) (y := (c, a))
  constructor
  · intro hall
    obtain ⟨hip, hipEnd⟩ := hip.1 hall.byIp
    obtain ⟨hid, hidEnd⟩ := hid.1 hall.byPeerId
    obtain ⟨hbefore, hlast⟩ := hrefused.1 hall.refused
    exact ⟨⟨hip, hid, hbefore⟩, fun ha => ⟨hipEnd ha, hidEnd ha⟩, hlast⟩
  · intro hall
    obtain ⟨hlimits, hend, hlast⟩ := hall
    exact ⟨hip.2 ⟨hlimits.byIp, fun ha => (hend ha).1⟩, hid.2 ⟨hlimits.byPeerId, fun ha => (hend ha).2⟩,
      hrefused.2 ⟨hlimits.refused, hlast⟩⟩

/-- The key of a call may be used by one that is answered. -/
structure Room (s : Run Ip Id) (c : Call Ip Id) : Prop where
  ip : ∀ ip, c.ip = some ip → lookup s.limiter.byIp.table ip = none → s.limiter.byIp.table.length < maxSize
  id : ∀ id, c.peerId = some id → lookup s.limiter.byPeerId.table id = none →
    s.limiter.byPeerId.table.length < maxSize

section Step

variable {K : Type} [DecidableEq K] {t : LruTable K} {ops : K → List (Int × Time)} {k : K} {now : Time}
  {score : Int}

/-- An operation that has capacity is added. -/
theorem Inv.accept (h : Inv t ops now) (hscore : 0 ≤ score) (hcapacity : 0 ≤ t.initialCapacity)
    (hroom : lookup t.table k = none → t.table.length < maxSize) (hfits : (t.hasCapacity k now score).2 = true) :
    Inv ((t.hasCapacity k now score).1.add k now score).1
      (Function.update ops k (ops k ++ [(score, now)])) now := by
  refine (h.hasCapacity k score).add hscore ?_ (fun hnone => ?_) fun r hr => ?_
  · rw [hasCapacity_capacity]
    exact hcapacity
  · rw [lookup_hasCapacity, if_pos rfl, Option.map_eq_none_iff] at hnone
    have hsame : (t.hasCapacity k now score).1 = t := by rw [LruTable.hasCapacity, hnone]
    rw [hsame]
    exact hroom hnone
  · rw [lookup_hasCapacity, if_pos rfl] at hr
    obtain ⟨r', hr', rfl⟩ := Option.map_eq_some_iff.1 hr
    exact hasCapacity_iff.1 hfits r' hr'

end Step

/-- A refused call would exceed the capacity, and the history stays. -/
theorem refused_spec (h : Standing capacity s c.now) (hscore : 0 ≤ c.score) {l : Limiter Ip Id}
    (hip : Inv l.byIp (fun ip => passed Call.ip ip s.trace) c.now)
    (hid : Inv l.byPeerId (fun id => passed Call.peerId id s.trace) c.now)
    (hipCapacity : l.byIp.initialCapacity = capacity) (hidCapacity : l.byPeerId.initialCapacity = capacity)
    (hexceeds : Exceeds capacity s.trace c) (hcovers : s.Covers c) :
    Standing capacity ⟨l, s.trace ++ [(c, .capacityExceeded)]⟩ c.now ∧
      (Limits capacity (s.trace ++ [(c, .capacityExceeded)]) ↔ Limits capacity s.trace ∧ s.Covers c) := by
  refine ⟨⟨?_, ?_, hipCapacity, hidCapacity⟩, ?_⟩
  · rw [funext (passed_same fun ha => by cases ha)]
    exact hip
  · rw [funext (passed_same fun ha => by cases ha)]
    exact hid
  · rw [limits_snoc h hscore]
    exact and_congr_right fun _ => ⟨fun _ => hcovers, fun _ => ⟨fun ha => (by cases ha), fun _ => hexceeds⟩⟩

/-- What a call does to the tables and to the limits. -/
theorem call_spec (h : Standing capacity s c.now) (hcapacity : 0 ≤ capacity) (hscore : 0 ≤ c.score)
    (hroom : Room s c) : Standing capacity (s.call c) c.now ∧
      (Limits capacity (s.call c).trace ↔ Limits capacity s.trace ∧ s.Covers c) := by
  have hipCapacity := h.ipCapacity
  have hidCapacity := h.idCapacity
  cases hsender : c.sender with
  | «local» =>
    have hip : c.ip = none := by rw [Call.ip, hsender]
    have hid : c.peerId = none := by rw [Call.peerId, hsender]
    have hcall : s.call c = ⟨s.limiter, s.trace ++ [(c, .withinCapacity)]⟩ := by
      rw [Run.call, hsender]
      rfl
    rw [hcall]
    refine ⟨⟨?_, ?_, hipCapacity, hidCapacity⟩, ?_⟩
    · rw [funext (passed_same fun _ => hip)]
      exact h.byIp
    · rw [funext (passed_same fun _ => hid)]
      exact h.byPeerId
    · rw [limits_snoc h hscore]
      refine and_congr_right fun _ => ⟨fun _ peer hpeer => ?_, fun _ => ⟨fun _ => ⟨?_, ?_⟩, fun ha => ?_⟩⟩
      · rw [hsender] at hpeer
        cases hpeer
      · intro ip hip'
        rw [hip] at hip'
        cases hip'
      · intro id hid'
        rw [hid] at hid'
        cases hid'
      · cases ha
  | remote peer =>
    have hip : c.ip = some peer.ip := by rw [Call.ip, hsender]
    have hid : c.peerId = some peer.peerId := by rw [Call.peerId, hsender]
    cases hipFits : (s.limiter.byIp.hasCapacity peer.ip c.now c.score).2 with
    | false =>
      have hcall : s.call c = ⟨⟨(s.limiter.byIp.hasCapacity peer.ip c.now c.score).1, s.limiter.byPeerId⟩,
          s.trace ++ [(c, .capacityExceeded)]⟩ := by
        simp only [Run.call, hsender, Limiter.add, hipFits]
        rfl
      rw [hcall]
      refine refused_spec h hscore (h.byIp.hasCapacity _ _) h.byPeerId (hasCapacity_capacity.trans hipCapacity)
        hidCapacity (.inl ⟨peer.ip, hip, ?_⟩) fun peer' hpeer' hfits => ?_
      · rw [← hipCapacity]
        exact exceeds_of_full h.byIp hipFits
      · cases hsender.symm.trans hpeer'
        rw [hipFits] at hfits
        cases hfits
    | true =>
      cases hidFits : (s.limiter.byPeerId.hasCapacity peer.peerId c.now c.score).2 with
      | false =>
        have hcall : s.call c = ⟨⟨(s.limiter.byIp.hasCapacity peer.ip c.now c.score).1,
            (s.limiter.byPeerId.hasCapacity peer.peerId c.now c.score).1⟩,
            s.trace ++ [(c, .capacityExceeded)]⟩ := by
          simp only [Run.call, hsender, Limiter.add, hipFits, hidFits]
          rfl
        rw [hcall]
        refine refused_spec h hscore (h.byIp.hasCapacity _ _) (h.byPeerId.hasCapacity _ _)
          (hasCapacity_capacity.trans hipCapacity) (hasCapacity_capacity.trans hidCapacity)
          (.inr ⟨peer.peerId, hid, ?_⟩) fun peer' hpeer' _ hfits => ?_
        · rw [← hidCapacity]
          exact exceeds_of_full h.byPeerId hidFits
        · cases hsender.symm.trans hpeer'
          rw [hidFits] at hfits
          cases hfits
      | true =>
        have hcall : s.call c =
            ⟨⟨((s.limiter.byIp.hasCapacity peer.ip c.now c.score).1.add peer.ip c.now c.score).1,
              ((s.limiter.byPeerId.hasCapacity peer.peerId c.now c.score).1.add peer.peerId c.now c.score).1⟩,
              s.trace ++ [(c, .withinCapacity)]⟩ := by
          simp only [Run.call, hsender, Limiter.add, hipFits, hidFits]
          rfl
        rw [hcall]
        refine ⟨⟨?_, ?_, ?_, ?_⟩, ?_⟩
        · rw [passed_update hip]
          exact h.byIp.accept hscore (hipCapacity.symm ▸ hcapacity) (hroom.ip _ hip) hipFits
        · rw [passed_update hid]
          exact h.byPeerId.accept hscore (hidCapacity.symm ▸ hcapacity) (hroom.id _ hid) hidFits
        · exact add_capacity.trans (hasCapacity_capacity.trans hipCapacity)
        · exact add_capacity.trans (hasCapacity_capacity.trans hidCapacity)
        · have hipCovers := covers_iff h.byIp hipFits
          have hidCovers := covers_iff h.byPeerId hidFits
          rw [hipCapacity] at hipCovers
          rw [hidCapacity] at hidCovers
          rw [limits_snoc h hscore]
          refine and_congr_right fun _ => ⟨fun hends peer' hpeer' _ _ => ?_,
            fun hcovers => ⟨fun _ => ⟨?_, ?_⟩, ?_⟩⟩
          · cases hsender.symm.trans hpeer'
            obtain ⟨hipEnd, hidEnd⟩ := hends.1 rfl
            exact ⟨hipCovers.2 (hipEnd _ hip), hidCovers.2 (hidEnd _ hid)⟩
          · intro ip hip'
            cases hip.symm.trans hip'
            exact hipCovers.1 (hcovers peer hsender hipFits hidFits).1
          · intro id hid'
            cases hid.symm.trans hid'
            exact hidCovers.1 (hcovers peer hsender hipFits hidFits).2
          · intro ha
            cases ha

/-! ## Main result -/

theorem run_snoc (calls : List (Call Ip Id)) (c : Call Ip Id) :
    run capacity (calls ++ [c]) = (run capacity calls).call c := by
  rw [run, List.foldl_append]
  rfl

/-- The trace has the calls. -/
theorem trace_calls (calls : List (Call Ip Id)) : (run capacity calls).trace.map Prod.fst = calls := by
  induction calls using List.reverseRecOn with
  | nil => rfl
  | append_singleton calls c ih => rw [run_snoc, Run.call, List.map_append, ih, List.map_singleton]

/-- Operations come from calls. -/
theorem mem_of_passed {K : Type} [DecidableEq K] {key : Call Ip Id → Option K} {k : K} {calls : List (Call Ip Id)}
    (h : passed key k (run capacity calls).trace ≠ []) : k ∈ (calls.filterMap key).toFinset := by
  rw [passed, Ne, List.map_eq_nil_iff] at h
  obtain ⟨e, he⟩ := List.exists_mem_of_ne_nil _ h
  obtain ⟨hmem, hkey⟩ := List.mem_filter.1 he
  rw [List.mem_toFinset, List.mem_filterMap]
  refine ⟨e.1, ?_, (of_decide_eq_true hkey).2⟩
  have hcall := List.mem_map_of_mem (f := Prod.fst) hmem
  rw [trace_calls] at hcall
  exact hcall

/-- The calls of at most `maxSize` IPs and peer ids, in order. -/
structure Calls (calls : List (Call Ip Id)) : Prop where
  sorted : calls.Pairwise fun c d => c.now ≤ d.now
  nonneg : ∀ c ∈ calls, 0 ≤ c.score
  ips : (calls.filterMap Call.ip).toFinset.card ≤ maxSize
  ids : (calls.filterMap Call.peerId).toFinset.card ≤ maxSize

theorem Calls.init {calls : List (Call Ip Id)} (h : Calls (calls ++ [c])) : Calls calls where
  sorted := (List.pairwise_append.1 h.sorted).1
  nonneg d hd := h.nonneg d (List.mem_append_left _ hd)
  ips := by
    refine (Finset.card_le_card fun ip hip => ?_).trans h.ips
    rw [List.mem_toFinset] at hip ⊢
    rw [List.filterMap_append]
    exact List.mem_append_left _ hip
  ids := by
    refine (Finset.card_le_card fun id hid => ?_).trans h.ids
    rw [List.mem_toFinset] at hid ⊢
    rw [List.filterMap_append]
    exact List.mem_append_left _ hid

theorem run_spec (hcapacity : 0 ≤ capacity) {calls : List (Call Ip Id)} (h : Calls calls) {now : Time}
    (hnow : ∀ c ∈ calls, c.now ≤ now) :
    Standing capacity (run capacity calls) now ∧
      (Limits capacity (run capacity calls).trace ↔ Covered capacity calls) := by
  induction calls using List.reverseRecOn generalizing now with
  | nil =>
    refine ⟨⟨.create capacity, .create capacity, rfl, rfl⟩, fun _ before c after hnil => ?_, fun _ => ⟨?_, ?_, ?_⟩⟩
    · simp at hnil
    · exact fun _ _ => hcapacity
    · exact fun _ _ => hcapacity
    · intro before e after hnil
      have hnil : [] = before ++ e :: after := hnil
      simp at hnil
  | append_singleton calls c ih =>
    have hlast : c.now ≤ now := hnow c (by simp)
    have hbefore : ∀ d ∈ calls, d.now ≤ c.now := by
      intro d hd
      exact (List.pairwise_append.1 h.sorted).2.2 d hd c List.mem_cons_self
    obtain ⟨hstanding, hlimits⟩ := ih h.init hbefore
    have hroom : Room (run capacity calls) c := by
      constructor
      · intro ip hip hnone
        refine hstanding.byIp.room (fun k hk => ?_) h.ips ?_ hnone
        · have hmem := mem_of_passed hk
          rw [List.mem_toFinset] at hmem ⊢
          rw [List.filterMap_append]
          exact List.mem_append_left _ hmem
        · rw [List.mem_toFinset, List.mem_filterMap]
          exact ⟨c, by simp, hip⟩
      · intro id hid hnone
        refine hstanding.byPeerId.room (fun k hk => ?_) h.ids ?_ hnone
        · have hmem := mem_of_passed hk
          rw [List.mem_toFinset] at hmem ⊢
          rw [List.filterMap_append]
          exact List.mem_append_left _ hmem
        · rw [List.mem_toFinset, List.mem_filterMap]
          exact ⟨c, by simp, hid⟩
    obtain ⟨hnext, hcall⟩ := call_spec hstanding hcapacity (h.nonneg c (by simp)) hroom
    rw [run_snoc]
    refine ⟨⟨hnext.byIp.later hlast, hnext.byPeerId.later hlast, hnext.ipCapacity, hnext.idCapacity⟩, ?_⟩
    rw [hcall, hlimits, Covered, Covered, forall_split_snoc]

omit [DecidableEq Ip] [DecidableEq Id] in
theorem exists_bound (calls : List (Call Ip Id)) : ∃ now, ∀ c ∈ calls, c.now ≤ now := by
  induction calls with
  | nil => exact ⟨0, by simp⟩
  | cons c calls ih =>
    obtain ⟨now, hnow⟩ := ih
    refine ⟨max c.now now, fun d hd => ?_⟩
    rcases List.mem_cons.1 hd with rfl | hd
    · exact le_max_left _ _
    · exact (hnow d hd).trans (le_max_right _ _)

/-- **The limit holds as long as what a first operation took is left over.** -/
theorem limits_iff (capacity : Int) (hcapacity : 0 ≤ capacity) (calls : List (Call Ip Id)) (h : Calls calls) :
    Limits capacity (run capacity calls).trace ↔ Covered capacity calls := by
  obtain ⟨now, hnow⟩ := exists_bound calls
  exact (run_spec hcapacity h hnow).2

/-- Two calls at once, each of the whole capacity. -/
def twice : List (Call Nat Nat) := [⟨.remote ⟨1, 1⟩, 0, 10⟩, ⟨.remote ⟨1, 1⟩, 0, 10⟩]

theorem twice_calls : Calls twice := ⟨by simp [twice], by simp [twice], by decide, by decide⟩

/-- The first is not subtracted, so both get through. -/
theorem capacity_twice : ¬ ∀ calls : List (Call Nat Nat), Calls calls → Limits 10 (run 10 calls).trace := by
  intro h
  have hsum := (h twice twice_calls).byIp 1 0
  have htotal : within 0 (passed Call.ip 1 (run 10 twice).trace) = 20 := by decide +kernel
  omega

theorem limits_iff_twice : Limits 10 (run 10 twice).trace ↔ Covered 10 twice :=
  limits_iff 10 (by decide) twice twice_calls

end Runs

end Mina.RateLimiter
