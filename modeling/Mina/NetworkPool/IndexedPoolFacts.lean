/-
The pool invariant (`IndexedPool.Wf`) and what each operation does to it.

A pool stands for its queues (`IndexedPool.queues`): a list of commands for
each sender. The other indices are views of the queues: `Indexed` says that
the maps by fee, hash and expiry and the count hold exactly a given set of
commands, and each elementary update of the indices is one lemma about that
set. An operation then changes one sender's queue (`Wf.setQueue`).
-/
import Mina.NetworkPool.IndexedPool

namespace Mina.IndexedPool

open Std (ExtTreeMap)
open FSequence (FSeq)

variable {H : TransactionHash}

/-! ## The invariant -/

/-- The queues a pool stands for. -/
abbrev Queues (H : TransactionHash) := AccountId → List (Command H)

/-- A sender's queue, empty when nothing is stored for the sender. -/
def queues (t : IndexedPool H) : Queues H := fun s =>
  match t.allBySender[s]? with
  | none => []
  | some (queue, _) => queue.toList

/-- A command is in its sender's queue. -/
def InQueues (Q : Queues H) (c : Command H) : Prop := c ∈ Q c.feePayer

/-- A command is at the head of its sender's queue. -/
def IsHead (Q : Queues H) (c : Command H) : Prop := (Q c.feePayer).head? = some c

/-- Consecutive nonces. -/
def Dense (l : List (Command H)) : Prop := l.IsChain fun c d => d.nonce.val = c.nonce.val + 1

/-- The currency a command consumes, as a number. -/
def consumedVal (K : PoolConstants) (c : Command H) : Nat := ((currencyConsumed K c).map Fin.val).getD 0

/-- `r` is the sum of the currency consumed by the commands of `l`. -/
structure Reserved (K : PoolConstants) (l : List (Command H)) (r : Amount) : Prop where
  consumed : ∀ c ∈ l, (currencyConsumed K c).isSome
  sum : r.val = (l.map (consumedVal K)).sum

/-- The maps by fee, by hash and by expiry and the count are those of the
set of commands `S`. -/
structure Indexed (t : IndexedPool H) (S : Command H → Prop) : Prop where
  byFee : t.allByFee.Indexes (·.fee) S
  byHash : ∀ h c, t.allByHash[h]? = some c ↔ c.hash = h ∧ S c
  expiration : t.transactionsWithExpiration.Indexes (·.validUntil)
    fun c => S c ∧ c.validUntil ≠ GlobalSlot.maxValue
  size : t.size = t.allByHash.size

/-- A pool is well formed: no stored queue is empty and its currency is the
sum over it, every queue is its sender's and has consecutive nonces, the
maps by fee, hash and expiry and the count are those of the queued commands,
and the applicable commands are the heads. -/
structure Wf (t : IndexedPool H) : Prop where
  stored : ∀ (s : AccountId) (q : FSeq (Command H)) (r : Amount), t.allBySender[s]? = some (q, r) → q.toList ≠ [] ∧ Reserved t.constants q.toList r
  sender : ∀ s, ∀ c ∈ t.queues s, c.feePayer = s
  dense : ∀ s, Dense (t.queues s)
  indexed : Indexed t (InQueues t.queues)
  applicable : t.applicableByFee.Indexes (·.fee) (IsHead t.queues)

theorem queues_of_some {t : IndexedPool H} {s : AccountId} {q : FSeq (Command H)} {r : Amount}
    (h : t.allBySender[s]? = some (q, r)) : t.queues s = q.toList := by
  simp [queues, h]

theorem queues_of_none {t : IndexedPool H} {s : AccountId} (h : t.allBySender[s]? = none) :
    t.queues s = [] := by
  simp [queues, h]

/-! ## Queues -/

theorem Dense.nonce_lt {l : List (Command H)} (h : Dense l) :
    l.Pairwise fun c d => c.nonce.val < d.nonce.val := by
  refine List.isChain_iff_pairwise.1 (h.imp fun c d hcd => ?_)
  omega

theorem Dense.nodup {l : List (Command H)} (h : Dense l) : l.Nodup :=
  h.nonce_lt.imp fun hlt heq => absurd (heq ▸ hlt) (Nat.lt_irrefl _)

theorem Dense.of_isInfix {l l' : List (Command H)} (h : Dense l) (hl : l' <:+: l) : Dense l' := by
  obtain ⟨pre, post, rfl⟩ := hl
  exact (List.IsChain.left_of_append h).right_of_append

/-- The nonces of a queue count up from its head's. -/
theorem Dense.nonce_append {pre post : List (Command H)} {a c : Command H}
    (h : Dense (pre ++ c :: post)) (ha : (pre ++ c :: post).head? = some a) :
    c.nonce.val = a.nonce.val + pre.length := by
  induction pre generalizing a with
  | nil =>
    simp only [List.nil_append, List.head?_cons, Option.some.injEq] at ha
    simp [ha]
  | cons b pre ih =>
    simp only [List.cons_append, List.head?_cons, Option.some.injEq] at ha
    subst ha
    have h' : Dense (b :: (pre ++ c :: post)) := h
    cases hpre : pre ++ c :: post with
    | nil => simp at hpre
    | cons d rest =>
      rw [hpre] at h'
      have hbd : d.nonce.val = b.nonce.val + 1 := (List.isChain_cons_cons.1 h').1
      have := ih (hpre ▸ (List.isChain_cons_cons.1 h').2) (by rw [hpre]; rfl)
      simp only [List.length_cons]
      omega

theorem Dense.snoc {l : List (Command H)} {a c : Command H} (h : Dense l) (ha : l.getLast? = some a)
    (hn : c.nonce.val = a.nonce.val + 1) : Dense (l ++ [c]) := by
  refine List.IsChain.append h (List.isChain_singleton c) ?_
  intro x hx y hy
  rw [ha] at hx
  simp only [List.head?_cons, Option.mem_def, Option.some.injEq] at hx hy
  subst hx hy
  exact hn

theorem Dense.cons {l : List (Command H)} {a c : Command H} (h : Dense l) (ha : l.head? = some a)
    (hn : a.nonce.val = c.nonce.val + 1) : Dense (c :: l) := by
  cases l with
  | nil => simp at ha
  | cons b l =>
    simp only [List.head?_cons, Option.some.injEq] at ha
    subst ha
    exact List.isChain_cons_cons.2 ⟨hn, h⟩

theorem mem_update {Q : Queues H} {s : AccountId} {l : List (Command H)} {c : Command H} :
    InQueues (Function.update Q s l) c ↔ if c.feePayer = s then c ∈ l else InQueues Q c := by
  simp only [InQueues, Function.update_apply]
  split <;> rfl

theorem isHead_update {Q : Queues H} {s : AccountId} {l : List (Command H)} {c : Command H} :
    IsHead (Function.update Q s l) c ↔ if c.feePayer = s then l.head? = some c else IsHead Q c := by
  simp only [IsHead, Function.update_apply]
  split <;> rfl

/-! ## Reserved currency -/

section Reserved

variable {K : PoolConstants} {l l' : List (Command H)} {r : Amount} {c : Command H}

theorem consumedVal_eq {a : Amount} (h : currencyConsumed K c = some a) : consumedVal K c = a.val := by
  simp [consumedVal, h]

theorem Reserved.nil : Reserved (H := H) K [] 0 := ⟨by simp, rfl⟩

theorem Reserved.singleton {a : Amount} (h : currencyConsumed K c = some a) : Reserved K [c] a :=
  ⟨by simp [h], by simp [consumedVal_eq h]⟩

theorem reserved_append : Reserved K (l ++ l') r ↔
    (∀ c ∈ l ++ l', (currencyConsumed K c).isSome) ∧
      r.val = (l.map (consumedVal K)).sum + (l'.map (consumedVal K)).sum :=
  ⟨fun h => ⟨h.consumed, by simpa using h.sum⟩, fun h => ⟨h.1, by simpa using h.2⟩⟩

/-- Summing up the currency of the second part of a queue goes through. -/
theorem fold_addConsumed (hl : ∀ c ∈ l, (currencyConsumed K c).isSome) (a : Amount)
    (hsum : a.val + (l.map (consumedVal K)).sum < 2 ^ 64) :
    ∃ b : Amount, Exn.fold (addConsumed K) a l = .ok b ∧ b.val = a.val + (l.map (consumedVal K)).sum := by
  induction l generalizing a with
  | nil => exact ⟨a, rfl, rfl⟩
  | cons c l ih =>
    obtain ⟨x, hx⟩ := Option.isSome_iff_exists.1 (hl c (by simp))
    simp only [List.map_cons, List.sum_cons, consumedVal_eq hx] at hsum ⊢
    have hadd : Currency.add x a = some ⟨x.val + a.val, by omega⟩ := Currency.add_eq_some.2 rfl
    obtain ⟨b, hb, hb'⟩ := ih (fun c hc => hl c (by simp [hc])) ⟨x.val + a.val, by omega⟩ (by simp only; omega)
    refine ⟨b, ?_, by rw [hb']; simp only; omega⟩
    rw [Exn.fold, addConsumed, hx, Option.bind_some, hadd, Exn.valueExn_some, Exn.andThen_ok, hb]

theorem subConsumed_ok {a : Amount} (hc : (currencyConsumed K c).isSome) (hle : consumedVal K c ≤ a.val) :
    ∃ b : Amount, subConsumed K a c = .ok b ∧ b.val = a.val - consumedVal K c := by
  obtain ⟨x, hx⟩ := Option.isSome_iff_exists.1 hc
  rw [consumedVal_eq hx] at hle ⊢
  refine ⟨⟨a.val - x.val, by omega⟩, ?_, rfl⟩
  rw [subConsumed, hx, Exn.valueExn_some, Exn.andThen_ok,
    Currency.sub_eq_some (z := ⟨a.val - x.val, by omega⟩) |>.2 ⟨hle, rfl⟩, Exn.valueExn_some]

/-- Taking the currency of the first part of a queue off the total leaves
the second part's. -/
theorem fold_subConsumed (h : Reserved K (l ++ l') r) :
    ∃ r' : Amount, Exn.fold (subConsumed K) r l = .ok r' ∧ Reserved K l' r' := by
  induction l generalizing r with
  | nil => exact ⟨r, rfl, h⟩
  | cons c l ih =>
    have hsum := h.sum
    simp only [List.cons_append, List.map_cons, List.sum_cons] at hsum
    obtain ⟨b, hb, hb'⟩ := subConsumed_ok (a := r) (h.consumed c (by simp)) (by omega)
    obtain ⟨r', hr', hres⟩ := ih (r := b) ⟨fun d hd => h.consumed d (by simp [List.mem_append] at hd ⊢; tauto),
      by omega⟩
    exact ⟨r', by rw [Exn.fold, hb, Exn.andThen_ok, hr'], hres⟩

/-- What `dropUntilSufficientBalance` answers on a queue with its currency:
a prefix of the queue that fits the balance and the commands after it, last
first, the first of which would not have fitted. -/
theorem dropUntilSufficientBalance_spec (balance : Amount) {q : FSeq (Command H)} (dropped : List (Command H))
    (h : Reserved K q.toList r) :
    ∃ q' r' d, dropUntilSufficientBalance K balance q r dropped = .ok (q', r', dropped ++ d) ∧
      q.toList = q'.toList ++ d.reverse ∧ Reserved K q'.toList r' ∧ r' ≤ balance ∧
      ∀ c ∈ d.getLast?, balance.val < ((q'.toList ++ [c]).map (consumedVal K)).sum := by
  fun_induction dropUntilSufficientBalance K balance q r dropped with
  | case1 q r dropped hle => exact ⟨q, r, [], by simp, by simp, h, hle, by simp⟩
  | case2 q r dropped hle hu =>
    exfalso
    rw [FSeq.unsnoc_eq_none] at hu
    have := h.sum
    simp only [hu, List.map_nil, List.sum_nil] at this
    exact hle (by rw [Fin.le_def, this]; exact Nat.zero_le _)
  | case3 q r dropped hle daeh liat hu ih =>
    have hq := FSeq.unsnoc_eq_some hu
    rw [hq, reserved_append] at h
    obtain ⟨hcons, hsum⟩ := h
    simp only [List.map_cons, List.map_nil, List.sum_cons, List.sum_nil, Nat.add_zero] at hsum
    obtain ⟨b, hb, hb'⟩ := subConsumed_ok (a := r) (hcons liat (by simp)) (by omega)
    obtain ⟨q', r', d, hdrop, htail, hres, hle', hlast⟩ :=
      ih b ⟨fun c hc => hcons c (by simp [hc]), by omega⟩
    refine ⟨q', r', liat :: d, ?_, ?_, hres, hle', ?_⟩
    · rw [hb, Exn.andThen_ok, hdrop]; simp
    · rw [hq, htail]; simp
    · cases d with
      | cons x d => simpa using hlast
      | nil =>
        simp only [List.getLast?_singleton, Option.mem_def, Option.some.injEq, forall_eq']
        simp only [List.reverse_nil, List.append_nil] at htail
        rw [← htail]
        simp only [List.map_append, List.map_cons, List.map_nil, List.sum_append, List.sum_cons,
          List.sum_nil]
        rw [Fin.le_def] at hle
        omega

end Reserved

/-! ## The maps by fee, hash and expiry -/

section Indexed

variable {t t' t'' : IndexedPool H} {S : Command H → Prop} {c : Command H}

/-- What an update of the maps by fee, hash and expiry leaves alone. -/
structure Frame (t t' : IndexedPool H) : Prop where
  allBySender : t'.allBySender = t.allBySender
  applicableByFee : t'.applicableByFee = t.applicableByFee
  constants : t'.constants = t.constants

theorem Frame.refl (t : IndexedPool H) : Frame t t := ⟨rfl, rfl, rfl⟩

theorem Frame.trans (h : Frame t t') (h' : Frame t' t'') : Frame t t'' :=
  ⟨h'.allBySender.trans h.allBySender, h'.applicableByFee.trans h.applicableByFee,
    h'.constants.trans h.constants⟩

theorem removeAllByFeeAndHashAndExpirationExn_frame (h : removeAllByFeeAndHashAndExpirationExn t c = .ok t') :
    Frame t t' := by
  obtain ⟨byFee, -, h⟩ := Exn.andThen_eq_ok.1 h
  obtain ⟨expiration, -, h⟩ := Exn.andThen_eq_ok.1 h
  cases h
  exact ⟨rfl, rfl, rfl⟩

theorem removeList_frame {l : List (Command H)}
    (h : Exn.fold removeAllByFeeAndHashAndExpirationExn t l = .ok t') : Frame t t' :=
  Exn.fold_induct (P := Frame t) (fun _ _ _ _ hf hok => hf.trans (removeAllByFeeAndHashAndExpirationExn_frame hok))
    (.refl t) h

theorem Indexed.congr {T : Command H → Prop} (h : Indexed t S) (hST : ∀ c, S c ↔ T c) : Indexed t T where
  byFee := h.byFee.congr hST
  byHash k c := by rw [h.byHash, hST]
  expiration := h.expiration.congr fun c => by rw [hST]
  size := h.size

/-- `Indexed` reads nothing but the maps by fee, hash and expiry and the count. -/
theorem Indexed.of_eq (h : Indexed t S) (hf : t'.allByFee = t.allByFee) (hh : t'.allByHash = t.allByHash)
    (he : t'.transactionsWithExpiration = t.transactionsWithExpiration) (hs : t'.size = t.size) :
    Indexed t' S where
  byFee := hf ▸ h.byFee
  byHash := hh ▸ h.byHash
  expiration := he ▸ h.expiration
  size := by rw [hs, hh, h.size]

theorem removeFromExpirationExn_ok {m : MapSet GlobalSlot (Command H)}
    (h : m.Indexes (·.validUntil) fun c => S c ∧ c.validUntil ≠ GlobalSlot.maxValue) (hc : S c) :
    ∃ m', removeFromExpirationExn m c = .ok m' ∧
      m'.Indexes (·.validUntil) fun d => (S d ∧ d ≠ c) ∧ d.validUntil ≠ GlobalSlot.maxValue := by
  rw [removeFromExpirationExn]
  by_cases hv : c.validUntil = GlobalSlot.maxValue
  · refine ⟨m, if_neg (not_not.2 hv), h.congr fun d => ?_⟩
    constructor
    · rintro ⟨hd, hn⟩
      exact ⟨⟨hd, fun e => hn (e ▸ hv)⟩, hn⟩
    · rintro ⟨⟨hd, -⟩, hn⟩
      exact ⟨hd, hn⟩
  · obtain ⟨m', hm, hm'⟩ := h.removeExn (x := c) ⟨hc, hv⟩
    exact ⟨m', by rw [if_pos hv, hm], hm'.congr fun d => by tauto⟩

theorem Indexed.remove (h : Indexed t S) (hc : S c) :
    ∃ t', removeAllByFeeAndHashAndExpirationExn t c = .ok t' ∧ Indexed t' (fun d => S d ∧ d ≠ c) ∧
      Frame t t' := by
  obtain ⟨byFee, hf, hf'⟩ := h.byFee.removeExn hc
  obtain ⟨expiration, he, he'⟩ := removeFromExpirationExn_ok h.expiration hc
  have hhash : t.allByHash[c.hash]? = some c := (h.byHash _ _).2 ⟨rfl, hc⟩
  have hmem : t.allByHash.contains c.hash = true := by
    rw [ExtTreeMap.contains_eq_isSome_getElem?, hhash]; rfl
  refine ⟨{ t with
    allByFee := byFee
    allByHash := t.allByHash.erase c.hash
    transactionsWithExpiration := expiration
    size := t.size - 1 }, ?_, ⟨hf', ?_, he', ?_⟩, ⟨rfl, rfl, rfl⟩⟩
  · rw [removeAllByFeeAndHashAndExpirationExn, hf, Exn.andThen_ok, he, Exn.andThen_ok]
  · intro k d
    simp only [ExtTreeMap.getElem?_erase, compare_eq_iff_eq]
    split
    · next hk =>
      simp only [reduceCtorEq, false_iff, not_and, not_not]
      rintro hd -
      exact Command.ext_hash (hd.trans hk.symm)
    · next hk =>
      rw [h.byHash]
      constructor
      · rintro ⟨rfl, hd⟩
        exact ⟨rfl, hd, fun e => hk (by rw [e])⟩
      · rintro ⟨rfl, hd, -⟩
        exact ⟨rfl, hd⟩
  · have hpos : t.allByHash.size ≠ 0 := by
      intro h0
      rw [← ExtTreeMap.eq_empty_iff_size_eq_zero] at h0
      simp [h0] at hmem
    simp only [ExtTreeMap.size_erase, hmem, if_true, h.size]
    omega

theorem Indexed.removeList {l : List (Command H)} (h : Indexed t S) (hl : ∀ c ∈ l, S c) (hn : l.Nodup) :
    ∃ t', Exn.fold removeAllByFeeAndHashAndExpirationExn t l = .ok t' ∧
      Indexed t' (fun d => S d ∧ d ∉ l) ∧ Frame t t' := by
  induction l generalizing t S with
  | nil => exact ⟨t, rfl, h.congr (by simp), .refl t⟩
  | cons c l ih =>
    rw [List.nodup_cons] at hn
    obtain ⟨t₁, h₁, hi₁, hf₁⟩ := h.remove (hl c (by simp))
    obtain ⟨t₂, h₂, hi₂, hf₂⟩ := ih hi₁
      (fun d hd => ⟨hl d (by simp [hd]), fun e => hn.1 (e ▸ hd)⟩) hn.2
    refine ⟨t₂, by rw [Exn.fold, h₁, Exn.andThen_ok, h₂], hi₂.congr fun d => ?_, hf₁.trans hf₂⟩
    simp only [List.mem_cons, not_or, and_assoc]

theorem Indexed.add (h : Indexed t S) (hc : ¬ S c) :
    Indexed (addAllByFeeAndHashAndExpiration t c) fun d => S d ∨ d = c where
  byFee := h.byFee.insert c
  byHash k d := by
    simp only [addAllByFeeAndHashAndExpiration, ExtTreeMap.getElem?_insert, compare_eq_iff_eq]
    split
    · next hk =>
      simp only [Option.some.injEq]
      constructor
      · rintro rfl
        exact ⟨hk, .inr rfl⟩
      · rintro ⟨hd, -⟩
        exact Command.ext_hash (hk.trans hd.symm)
    · next hk =>
      rw [h.byHash]
      constructor
      · rintro ⟨rfl, hd⟩
        exact ⟨rfl, .inl hd⟩
      · rintro ⟨rfl, hd | rfl⟩
        · exact ⟨rfl, hd⟩
        · exact absurd rfl hk
  expiration := by
    rw [addAllByFeeAndHashAndExpiration, addToExpiration]
    split
    · next hv =>
      refine (h.expiration.insert c).congr fun d => ⟨?_, ?_⟩
      · rintro (⟨hd, hn⟩ | rfl)
        · exact ⟨.inl hd, hn⟩
        · exact ⟨.inr rfl, hv⟩
      · rintro ⟨hd | rfl, hn⟩
        · exact .inl ⟨hd, hn⟩
        · exact .inr rfl
    · next hv =>
      refine h.expiration.congr fun d => ⟨fun ⟨hd, hn⟩ => ⟨.inl hd, hn⟩, ?_⟩
      rintro ⟨hd | rfl, hn⟩
      · exact ⟨hd, hn⟩
      · exact absurd hn hv
  size := by
    have hmem : t.allByHash.contains c.hash = false := by
      rw [ExtTreeMap.contains_eq_isSome_getElem?, Option.isSome_eq_false_iff, Option.isNone_iff_eq_none]
      cases hget : t.allByHash[c.hash]? with
      | none => rfl
      | some d =>
        obtain ⟨hdc, hd⟩ := (h.byHash _ _).1 hget
        exact absurd (Command.ext_hash hdc ▸ hd) hc
    simp [addAllByFeeAndHashAndExpiration, ExtTreeMap.size_insert, hmem, h.size]

end Indexed

/-! ## One sender's queue -/

theorem getElem?_setQueue {m : ExtTreeMap AccountId (FSeq (Command H) × Amount) compare} {s s' : AccountId}
    {q : FSeq (Command H)} {r : Amount} :
    (if q.toList = [] then m.erase s else m.insert s (q, r))[s']? =
      if s' = s then (if q.toList = [] then none else some (q, r)) else m[s']? := by
  by_cases hq : q.toList = []
  · simp only [hq, if_true, ExtTreeMap.getElem?_erase, compare_eq_iff_eq, @eq_comm _ s s']
  · simp only [hq, if_false, ExtTreeMap.getElem?_insert, compare_eq_iff_eq, @eq_comm _ s s']

theorem queues_setQueue {t t' : IndexedPool H} {s : AccountId} {q : FSeq (Command H)} {r : Amount}
    (hs : t'.allBySender = if q.toList = [] then t.allBySender.erase s else t.allBySender.insert s (q, r)) :
    t'.queues = Function.update t.queues s q.toList := by
  funext s'
  rw [Function.update_apply, queues, hs, getElem?_setQueue]
  by_cases hss : s' = s
  · rw [if_pos hss, if_pos hss]
    by_cases hq : q.toList = [] <;> simp [hq]
  · rw [if_neg hss, if_neg hss]; rfl

/-- A pool that differs from a well-formed one in one sender's queue, with
the indices to match, is well formed when the new queue is in order. -/
theorem Wf.setQueue {t t' : IndexedPool H} (h : Wf t) {s : AccountId} {q : FSeq (Command H)} {r : Amount}
    (hc : t'.constants = t.constants)
    (hs : t'.allBySender = if q.toList = [] then t.allBySender.erase s else t.allBySender.insert s (q, r))
    (hi : Indexed t' fun c => if c.feePayer = s then c ∈ q.toList else InQueues t.queues c)
    (ha : t'.applicableByFee.Indexes (·.fee) fun c =>
      if c.feePayer = s then q.toList.head? = some c else IsHead t.queues c)
    (hsender : ∀ c ∈ q.toList, c.feePayer = s) (hd : Dense q.toList)
    (hr : Reserved t.constants q.toList r) : Wf t' := by
  have hqueues := queues_setQueue hs
  refine ⟨?_, ?_, ?_, ?_, ?_⟩
  · intro s' q' r' h'
    rw [hs, getElem?_setQueue] at h'
    rw [hc]
    split at h'
    · split at h'
      · simp at h'
      · next hq =>
        simp only [Option.some.injEq, Prod.mk.injEq] at h'
        obtain ⟨rfl, rfl⟩ := h'
        exact ⟨hq, hr⟩
    · exact h.stored s' q' r' h'
  · intro s' c hcs
    rw [hqueues, Function.update_apply] at hcs
    split at hcs
    · next hss => rw [hss]; exact hsender c hcs
    · exact h.sender s' c hcs
  · intro s'
    rw [hqueues, Function.update_apply]
    split
    · exact hd
    · exact h.dense s'
  · exact hi.congr fun c => by rw [hqueues, mem_update]
  · exact ha.congr fun c => by rw [hqueues, isHead_update]

/-- The stored entry of a sender with queued commands. -/
theorem Wf.stored_of_mem {t : IndexedPool H} {s : AccountId} (hne : t.queues s ≠ []) :
    ∃ q r, t.allBySender[s]? = some (q, r) ∧ t.queues s = q.toList := by
  cases h : t.allBySender[s]? with
  | none => exact absurd (queues_of_none h) hne
  | some p => exact ⟨p.1, p.2, rfl, queues_of_some h⟩

/-! ## Removal -/

/-- The commands of one queue, split between what is kept and what is not. -/
theorem inQueues_diff {Q : Queues H} {s : AccountId} {l : List (Command H)} (keep drop : List (Command H)) (hl : Q s = l)
    (hmem : ∀ c, c ∈ l ↔ c ∈ keep ∨ c ∈ drop) (hdisj : ∀ c ∈ keep, c ∉ drop)
    (hs : ∀ c ∈ drop, c.feePayer = s) (c : Command H) :
    InQueues Q c ∧ c ∉ drop ↔ if c.feePayer = s then c ∈ keep else InQueues Q c := by
  by_cases hc : c.feePayer = s
  · rw [if_pos hc, InQueues, hc, hl, hmem]
    exact ⟨fun ⟨h, hn⟩ => h.resolve_right hn, fun h => ⟨.inl h, hdisj c h⟩⟩
  · rw [if_neg hc]
    exact ⟨fun h => h.1, fun h => ⟨h, fun hd => hc (hs c hd)⟩⟩

/-- Removing a command removes it and what follows it in its queue. -/
theorem removeWithDependentsExn_ok {t : IndexedPool H} (h : Wf t) {s : AccountId}
    {pre post : List (Command H)} {c : Command H} (hq : t.queues s = pre ++ c :: post) :
    ∃ t', removeWithDependentsExn t c = .ok (c :: post, t') ∧ Wf t' ∧
      t'.queues = Function.update t.queues s pre ∧ t'.constants = t.constants := by
  have hsender := h.sender s
  have hdense := h.dense s
  rw [hq] at hsender hdense
  have hcs : c.feePayer = s := hsender c (by simp)
  obtain ⟨q, r, hstored, hqs⟩ := Wf.stored_of_mem (t := t) (s := s) (by simp [hq])
  have hl : q.toList = pre ++ c :: post := hqs ▸ hq
  obtain ⟨-, hres⟩ := h.stored s q r hstored
  rw [hl] at hres
  obtain ⟨hcons, hsum⟩ := reserved_append.1 hres
  obtain ⟨a, ha⟩ : ∃ a, (pre ++ c :: post).head? = some a := by cases pre <;> simp
  have hnonce := hdense.nonce_append ha
  have hindex : c.nonce.val - a.nonce.val = pre.length := by omega
  have hnodup := hdense.nodup
  have hdisj : ∀ d ∈ pre, d ∉ c :: post := fun d hd hd' => List.disjoint_of_nodup_append hnodup hd hd'
  -- the currency that stays reserved
  have hr := r.isLt
  obtain ⟨removed, hremoved, hremoved'⟩ := fold_addConsumed (K := t.constants) (l := c :: post)
    (fun d hd => hcons d (by simp [List.mem_append]; exact .inr (by simpa using hd))) 0
    (by simp only [Fin.val_zero]; omega)
  simp only [Fin.val_zero, Nat.zero_add] at hremoved'
  have hsub : Currency.sub r removed = some ⟨r.val - removed.val, by omega⟩ :=
    Currency.sub_eq_some.2 ⟨by omega, rfl⟩
  have hkeepres : Reserved t.constants pre ⟨r.val - removed.val, by omega⟩ :=
    ⟨fun d hd => hcons d (by simp [hd]), by simp only; omega⟩
  -- the maps by fee, hash and expiry
  obtain ⟨t₁, ht₁, hi₁, hf₁⟩ := h.indexed.removeList (l := c :: post)
    (fun d hd => by
      rw [InQueues, hsender d (by simp [List.mem_append]; exact .inr (by simpa using hd)), hq]
      exact List.mem_append_right _ hd)
    (List.Nodup.of_append_right hnodup)
  have hi : Indexed t₁ fun d => if d.feePayer = s then d ∈ pre else InQueues t.queues d :=
    hi₁.congr (inQueues_diff _ _ hq (by simp) hdisj fun d hd => hsender d (List.mem_append_right _ hd))
  -- the heads
  have happ : ∃ m, (if a = c then MapSet.removeExn t₁.applicableByFee c.fee c else .ok t₁.applicableByFee) = .ok m ∧
      m.Indexes (·.fee) fun d => if d.feePayer = s then pre.head? = some d else IsHead t.queues d := by
    rw [hf₁.applicableByFee]
    by_cases hac : a = c
    · subst hac
      have hpre : pre = [] := by
        cases pre with
        | nil => rfl
        | cons b pre =>
          simp only [List.cons_append, List.head?_cons, Option.some.injEq] at ha
          exact absurd (List.mem_cons_self) (hdisj a (by simp [ha]))
      obtain ⟨m, hm, hm'⟩ := h.applicable.removeExn (x := a) (by rw [IsHead, hcs, hq, ha])
      refine ⟨m, by rw [if_pos rfl, hm], hm'.congr fun d => ?_⟩
      by_cases hd : d.feePayer = s
      · rw [if_pos hd, IsHead, hd, hq, ha, hpre]
        simp [eq_comm]
      · rw [if_neg hd]
        exact ⟨fun h => h.1, fun h => ⟨h, fun e => hd (e ▸ hcs)⟩⟩
    · refine ⟨_, if_neg hac, h.applicable.congr fun d => ?_⟩
      by_cases hd : d.feePayer = s
      · rw [if_pos hd, IsHead, hd, hq]
        cases pre with
        | nil => simp only [List.nil_append, List.head?_cons, Option.some.injEq] at ha; exact absurd ha.symm hac
        | cons b pre => rfl
      · rw [if_neg hd]
  obtain ⟨applicable, happ, happ'⟩ := happ
  -- the run of the function
  have hkeep : (q.splitAt pre.length).1.toList = pre := by simp [hl]
  have hdrop : (q.splitAt pre.length).2.toList = c :: post := by simp [hl]
  refine ⟨{ t₁ with
    allBySender :=
      if pre = [] then t.allBySender.erase s
      else t.allBySender.insert s ((q.splitAt pre.length).1, ⟨r.val - removed.val, by omega⟩)
    applicableByFee := applicable }, ?_, ?_, ?_, hf₁.constants⟩
  rotate_left
  · refine h.setQueue (s := s) (q := (q.splitAt pre.length).1) (r := ⟨r.val - removed.val, by omega⟩)
      hf₁.constants ?_ ?_ ?_ ?_ ?_ ?_ <;> rw [hkeep]
    · exact hi.of_eq rfl rfl rfl rfl
    · exact happ'
    · exact fun d hd => hsender d (by simp [hd])
    · exact hdense.of_isInfix (List.prefix_append _ _).isInfix
    · exact hkeepres
  · rw [queues_setQueue (t := t) (s := s) (q := (q.splitAt pre.length).1)
      (r := ⟨r.val - removed.val, by omega⟩) (by rw [hkeep]), hkeep]
  rw [removeWithDependentsExn, hcs, hstored]
  simp only [FSeq.isEmpty_eq, hl, FSeq.headExn_eq_ok.2 (hl ▸ ha), Exn.andThen_ok, hindex, hdrop, hkeep,
    FSeq.foldExn_eq, hremoved, hsub, Exn.valueExn_some, ht₁, happ, hf₁.allBySender]
  have hge : c.nonce.val ≥ a.nonce.val := by omega
  rw [Exn.assert_eq_ok]
  refine ⟨by simp, ?_⟩
  rw [decide_eq_true hge, Exn.assert_true, List.isEmpty_cons, Bool.not_false, Exn.assert_true]
  cases pre with
  | cons b pre => simp
  | nil =>
    have hzero : (⟨r.val - removed.val, by omega⟩ : Amount) = 0 := Fin.ext (by
      have := hkeepres.sum
      simpa using this)
    rw [if_neg (by simp), decide_eq_true hzero, Exn.assert_true, Exn.andThen_ok, if_pos rfl]

end Mina.IndexedPool
