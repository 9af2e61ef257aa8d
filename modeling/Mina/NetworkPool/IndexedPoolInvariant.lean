/-
The pool invariant over whole runs: what each operation of the pool does to
a well-formed pool.

`add_from_gossip_exn` compares nonces with `Account_nonce.succ`, which wraps
around: a command with nonce 0 goes on the end of a queue whose last nonce
is the largest one. That is the one way a well-formed pool is left
(`Op.Wraps`); every other successful step keeps the invariant.
-/
import Mina.NetworkPool.IndexedPoolFacts

namespace Mina.IndexedPool

open Std (ExtTreeMap)
open FSequence (FSeq)

variable {H : TransactionHash}

theorem wf_empty (K : PoolConstants) : Wf (empty K : IndexedPool H) where
  stored := by simp [empty]
  sender := by simp [queues, empty]
  dense s := by simp [queues, empty, Dense]
  indexed := by
    refine ⟨(MapSet.Indexes.empty _).congr ?_, ?_, (MapSet.Indexes.empty _).congr ?_, ?_⟩ <;>
      simp [InQueues, queues, empty]
  applicable := (MapSet.Indexes.empty _).congr (by simp [IsHead, queues, empty])

/-! ## Removal -/

theorem inQueues_split {t : IndexedPool H} {c : Command H} (hc : InQueues t.queues c) :
    ∃ pre post, t.queues c.feePayer = pre ++ c :: post := List.append_of_mem hc

theorem removeWithDependentsExn_wf {t t' : IndexedPool H} {c : Command H} {d : List (Command H)} (h : Wf t)
    (hc : InQueues t.queues c) (hr : removeWithDependentsExn t c = .ok (d, t')) : Wf t' := by
  obtain ⟨pre, post, hq⟩ := inQueues_split hc
  obtain ⟨t'', ht, hwf, -, -⟩ := removeWithDependentsExn_ok h hq
  cases ht.symm.trans hr
  exact hwf

theorem removeLowestFee_wf {t t' : IndexedPool H} {d : List (Command H)} (h : Wf t)
    (hr : removeLowestFee t = .ok (d, t')) : Wf t' := by
  rw [removeLowestFee, minElt] at hr
  split at hr
  · cases hr; exact h
  next fee set hmin =>
  split at hr
  · simp at hr
  next c hhead =>
  have hset : t.allByFee[fee]? = some set :=
    ExtTreeMap.mem_toList_iff_getElem?_eq_some.1 (List.mem_of_mem_head? hmin)
  have hc : c ∈ set := Std.ExtTreeSet.mem_toList.1 (List.mem_of_mem_head? hhead)
  exact removeWithDependentsExn_wf h ((h.indexed.byFee.mem fee c).1 ⟨set, hset, hc⟩).2 hr

theorem removeExpiredCommand_wf {acc acc' : List (Command H) × IndexedPool H} {c : Command H}
    (h : Wf acc.2) (hr : removeExpiredCommand acc c = .ok acc') : Wf acc'.2 := by
  rw [removeExpiredCommand] at hr
  split at hr
  · next hm =>
    rw [member, ExtTreeMap.contains_eq_isSome_getElem?] at hm
    obtain ⟨c', hc'⟩ := Option.isSome_iff_exists.1 hm
    obtain ⟨hhash, hin⟩ := (h.indexed.byHash _ _).1 hc'
    obtain ⟨⟨removed, t'⟩, hrem, hr⟩ := Exn.andThen_eq_ok.1 hr
    cases hr
    exact removeWithDependentsExn_wf h (Command.ext_hash hhash ▸ hin) hrem
  · cases hr; exact h

theorem removeExpired_wf {t t' : IndexedPool H} {now : GlobalSlot} {d : List (Command H)} (h : Wf t)
    (hr : removeExpired t now = .ok (d, t')) : Wf t' := by
  refine Exn.fold_induct (P := fun acc => Wf acc.2) (fun acc p acc' _ hacc hp => ?_) h hr
  exact Exn.fold_induct (P := fun acc => Wf acc.2)
    (fun acc c acc' _ hacc hc => removeExpiredCommand_wf hacc hc) hacc hp

/-! ## A committed command -/

/-- After a committed command leaves the head of a queue, a part of the rest
stays, with its currency. -/
theorem committed_rest {K : PoolConstants} {rest : FSeq (Command H)} {r : Amount} (balance : Amount) (b : Bool)
    (h : Reserved K rest.toList r) :
    ∃ q' r' d, (if b then dropUntilSufficientBalance K balance rest r [] else .ok (rest, r, [])) =
        .ok (q', r', d) ∧ rest.toList = q'.toList ++ d.reverse ∧ Reserved K q'.toList r' := by
  cases b with
  | false => exact ⟨rest, r, [], rfl, by simp, h⟩
  | true =>
    obtain ⟨q', r', d, hd, happ, hres, -⟩ := dropUntilSufficientBalance_spec balance [] h
    exact ⟨q', r', d, by simpa using hd, happ, hres⟩

theorem handleCommittedTxn_wf {t t' : IndexedPool H} {committed : Command H} {balance : Amount}
    {nonce : AccountNonce} {d : List (Command H)} (h : Wf t)
    (hr : handleCommittedTxn t committed balance nonce = .ok (.ok (t', d))) : Wf t' := by
  rw [handleCommittedTxn] at hr
  split at hr
  · cases hr; exact h
  next q r hstored =>
  obtain ⟨⟨first, rest⟩, huncons, hr⟩ := Exn.andThen_eq_ok.1 hr
  rw [Exn.valueExn_eq_ok] at huncons
  have hl := FSeq.uncons_eq_some huncons
  simp only at hr
  split at hr
  · simp at hr
  generalize hs : committed.feePayer = s at hstored hr
  have hq : t.queues s = first :: rest.toList := (queues_of_some hstored).trans hl
  have hsender := h.sender s
  have hdense := h.dense s
  rw [hq] at hsender hdense
  have hfirst : first.feePayer = s := hsender first (by simp)
  have hin : InQueues t.queues first := by rw [InQueues, hfirst, hq]; simp
  obtain ⟨-, hres⟩ := h.stored s q r hstored
  rw [hl] at hres
  obtain ⟨consumed, hconsumed⟩ := Option.isSome_iff_exists.1 (hres.consumed first (by simp))
  have hsum := hres.sum
  simp only [List.map_cons, List.sum_cons, consumedVal_eq hconsumed] at hsum
  have hr' := r.isLt
  have hsub : Currency.sub r consumed = some ⟨r.val - consumed.val, by omega⟩ :=
    Currency.sub_eq_some.2 ⟨by omega, rfl⟩
  have hres' : Reserved t.constants rest.toList ⟨r.val - consumed.val, by omega⟩ :=
    ⟨fun c hc => hres.consumed c (by simp [hc]), by simp only; omega⟩
  rw [hconsumed, Exn.valueExn_some, Exn.andThen_ok, hsub, Exn.valueExn_some, Exn.andThen_ok] at hr
  -- the committed command leaves the indices
  obtain ⟨m, hm, happ⟩ := h.applicable.removeExn (x := first) (by rw [IsHead, hfirst, hq]; rfl)
  rw [removeApplicableExn, hm, Exn.andThen_ok, Exn.andThen_ok] at hr
  have hi : Indexed { t with applicableByFee := m } (InQueues t.queues) := h.indexed.of_eq rfl rfl rfl rfl
  obtain ⟨t₁, ht₁, hi₁, hf₁⟩ := hi.remove hin
  rw [ht₁, Exn.andThen_ok] at hr
  -- the rest of the queue
  obtain ⟨q', r', drop, hdrop, hsplit, hres''⟩ := committed_rest balance
    (decide (AccountNonce.succ first.nonce = nonce)) hres'
  simp only [decide_eq_true_eq] at hdrop
  rw [hdrop, Exn.andThen_ok] at hr
  simp only at hr
  rw [hsplit] at hq hsender hdense
  have hnodup := hdense.nodup
  rw [List.nodup_cons, List.mem_append] at hnodup
  obtain ⟨hfirst', hnodup'⟩ := hnodup
  obtain ⟨t₂, ht₂, hi₂, hf₂⟩ := hi₁.removeList (l := drop)
    (fun c hc => by
      refine ⟨?_, fun e => hfirst' (.inr (by simpa [e] using hc))⟩
      rw [InQueues, hsender c (by simp [hc]), hq]
      simp [hc])
    (List.nodup_reverse.1 (List.Nodup.of_append_right hnodup'))
  rw [ht₂, Exn.andThen_ok] at hr
  cases hr
  have hi : Indexed t₂ fun c => if c.feePayer = s then c ∈ q'.toList else InQueues t.queues c := by
    refine (hi₂.congr fun c => ?_).congr
      (inQueues_diff _ (first :: drop) hq (fun c => ?_) (fun c hc => ?_) fun c hc => ?_)
    · simp only [List.mem_cons, not_or, and_assoc]
    · simp only [List.mem_cons, List.mem_append, List.mem_reverse]; tauto
    · have := List.disjoint_of_nodup_append hnodup' hc
      simp only [List.mem_reverse] at this
      simp only [List.mem_cons, not_or]
      exact ⟨fun e => hfirst' (.inl (e ▸ hc)), this⟩
    · exact hsender c (by simp only [List.mem_cons] at hc; simp only [List.mem_cons, List.mem_append,
        List.mem_reverse]; tauto)
  -- what is left of the heads
  have happ' : t₂.applicableByFee.Indexes (·.fee) fun c => c.feePayer ≠ s ∧ IsHead t.queues c := by
    rw [hf₂.applicableByFee, hf₁.applicableByFee]
    refine happ.congr fun c => ⟨fun hc => ⟨fun hcs => ?_, hc.1⟩, fun hc => ⟨hc.2, fun e => ?_⟩⟩
    · have hhead := hc.1
      rw [IsHead, hcs, hq, List.head?_cons, Option.some.injEq] at hhead
      exact hc.2 hhead.symm
    · exact hc.1 (e ▸ hfirst)
  have hbySender : t₂.allBySender = t.allBySender := by rw [hf₂.allBySender, hf₁.allBySender]
  have hconst : t₂.constants = t.constants := by rw [hf₂.constants, hf₁.constants]
  rw [setAllBySender]
  split
  · next hu =>
    rw [FSeq.uncons_eq_none] at hu
    refine h.setQueue (s := s) (q := q') (r := r') hconst (by simp [hu, hbySender]) (hi.of_eq rfl rfl rfl rfl)
      (happ'.congr fun c => ?_) (fun c hc => hsender c (by simp [hc])) ?_ hres''
    · rw [hu]; split <;> simp_all
    · rw [hu]; exact List.isChain_nil
  · next head tail hu =>
    have hql := FSeq.uncons_eq_some hu
    have hhead : head.feePayer = s := hsender head (by simp [hql])
    refine h.setQueue (s := s) (q := q') (r := r') hconst (by simp [hql, hbySender]) (hi.of_eq rfl rfl rfl rfl)
      ((happ'.insert head).congr fun c => ?_) (fun c hc => hsender c (by simp [hc])) ?_ hres''
    · rw [hql, List.head?_cons, Option.some.injEq]
      split
      · next hcs => simp [hcs, eq_comm]
      · next hcs =>
        refine ⟨?_, fun hc => .inl ⟨hcs, hc⟩⟩
        rintro (⟨-, hc⟩ | rfl)
        · exact hc
        · exact absurd hhead hcs
    · exact hdense.of_isInfix ⟨[first], drop.reverse, by simp⟩

/-! ## Addition -/

/-- A command that enters its sender's queue, at either end. -/
theorem Wf.insertQueue {t : IndexedPool H} (h : Wf t) {c : Command H} {q : FSeq (Command H)} {r : Amount}
    {m : MapSet Fee (Command H)} (hmem : ∀ d, d ∈ q.toList ↔ d ∈ t.queues c.feePayer ∨ d = c)
    (hnew : ¬ InQueues t.queues c) (hd : Dense q.toList) (hr : Reserved t.constants q.toList r)
    (ha : m.Indexes (·.fee) fun d =>
      if d.feePayer = c.feePayer then q.toList.head? = some d else IsHead t.queues d) :
    Wf { addAllByFeeAndHashAndExpiration t c with
      applicableByFee := m
      allBySender := t.allBySender.insert c.feePayer (q, r) } := by
  have hne : q.toList ≠ [] := List.ne_nil_of_mem ((hmem c).2 (.inr rfl))
  refine h.setQueue (s := c.feePayer) rfl (by rw [if_neg hne])
    (((h.indexed.add hnew).congr fun d => ?_).of_eq rfl rfl rfl rfl) ha (fun d hdq => ?_) hd hr
  · split
    · next hds => rw [hmem, InQueues, hds]
    · next hds => exact ⟨fun hd => hd.resolve_right fun e => hds (by rw [e]), .inl⟩
  · rcases (hmem d).1 hdq with hd | rfl
    · exact h.sender _ d hd
    · rfl

theorem Indexes.insert_head {t : IndexedPool H} (h : Wf t) {c : Command H} (hq : t.queues c.feePayer = []) :
    (MapSet.insert t.applicableByFee c.fee c).Indexes (·.fee) fun d =>
      if d.feePayer = c.feePayer then [c].head? = some d else IsHead t.queues d := by
  refine (h.applicable.insert c).congr fun d => ?_
  split
  · next hd => simp [IsHead, hd, hq, eq_comm]
  · next hd => exact ⟨fun h' => h'.resolve_right fun e => hd (by rw [e]), .inl⟩

/-- The first command of a sender. -/
theorem Wf.addFirst {t : IndexedPool H} (h : Wf t) {c : Command H} {a : Amount}
    (hq : t.queues c.feePayer = []) (ha : currencyConsumed t.constants c = some a) :
    Wf { addAllByFeeAndHashAndExpiration t c with
      applicableByFee := MapSet.insert t.applicableByFee c.fee c
      allBySender := t.allBySender.insert c.feePayer (FSeq.singleton c, a) } := by
  refine h.insertQueue (by simp [hq]) (by simp [InQueues, hq]) ?_ ?_ ?_
  · simp [Dense]
  · simpa using Reserved.singleton ha
  · simpa using Indexes.insert_head h hq

/-- A command that goes on the end of its sender's queue. -/
theorem Wf.addLast {t : IndexedPool H} (h : Wf t) {c last : Command H} {q : FSeq (Command H)}
    {a r r' : Amount} (hs : t.allBySender[c.feePayer]? = some (q, r)) (hlast : q.toList.getLast? = some last)
    (hn : c.nonce.val = last.nonce.val + 1) (ha : currencyConsumed t.constants c = some a)
    (hr' : Currency.add a r = some r') :
    Wf { addAllByFeeAndHashAndExpiration t c with
      allBySender := t.allBySender.insert c.feePayer (q.snoc c, r') } := by
  have hq := queues_of_some hs
  obtain ⟨hne, hres⟩ := h.stored _ _ _ hs
  have hdense : Dense (q.snoc c).toList := by
    rw [FSeq.toList_snoc]
    exact (hq ▸ h.dense c.feePayer).snoc hlast hn
  refine h.insertQueue (m := t.applicableByFee) (by simp [hq]) ?_ hdense ?_ (h.applicable.congr fun d => ?_)
  · have hnodup := hdense.nodup
    rw [FSeq.toList_snoc] at hnodup
    rw [InQueues, hq]
    exact fun hc => List.disjoint_of_nodup_append hnodup hc (by simp)
  · rw [FSeq.toList_snoc]
    refine reserved_append.2 ⟨fun d hd => ?_, ?_⟩
    · simp only [List.mem_append, List.mem_singleton] at hd
      rcases hd with hd | rfl
      · exact hres.consumed d hd
      · simp [ha]
    · rw [Currency.add_eq_some.1 hr', hres.sum]
      simp [consumedVal_eq ha, Nat.add_comm]
  · split
    · next hd => rw [IsHead, hd, hq, FSeq.toList_snoc, List.head?_append_of_ne_nil _ hne]
    · rfl

theorem Incoming.command_of_verified {verify : Command H → Bool} {x : Incoming H} {c : Command H}
    (h : x.verified verify = .ok c) : c = x.command := by
  cases x with
  | checked y => cases h; rfl
  | unchecked y =>
    rw [verified] at h
    split at h
    · cases h; rfl
    · cases h

/-- What an addition of `c` as the next command of its sender answers. -/
structure Extends (t : IndexedPool H) (c c' : Command H) (t' : IndexedPool H) : Prop where
  command : c' = c
  wf : Wf t'
  queues : t'.queues = Function.update t.queues c.feePayer (t.queues c.feePayer ++ [c])

/-- `c` is the next command of its sender, without wrapping around. -/
def Next (t : IndexedPool H) (c : Command H) : Prop :=
  ∀ last ∈ (t.queues c.feePayer).getLast?, c.nonce.val = last.nonce.val + 1

theorem addFirst_extends {t t' : IndexedPool H} (h : Wf t) {verified : Except CommandError (Command H)}
    {c c' : Command H} {a balance : Amount} {n : AccountNonce} {d : List (Command H)}
    (hv : ∀ x, verified = .ok x → x = c) (hq : t.allBySender[c.feePayer]? = none)
    (ha : currencyConsumed t.constants c = some a)
    (hr : addFirst t verified c a n balance = .ok (c', t', d)) : Extends t c c' t' := by
  unfold addFirst at hr
  split at hr
  · simp at hr
  split at hr
  · simp at hr
  split at hr
  · simp at hr
  next x =>
  obtain rfl := hv x rfl
  cases hr
  have hnil := queues_of_none hq
  refine ⟨rfl, h.addFirst hnil ha, ?_⟩
  rw [queues_setQueue (t := t) (s := c'.feePayer) (q := FSeq.singleton c') (r := a) (by simp)]
  simp [hnil]

theorem addLast_extends {t t' : IndexedPool H} {verified : Except CommandError (Command H)}
    {c c' : Command H} {a r balance : Amount} {q : FSeq (Command H)} {d : List (Command H)}
    (hv : ∀ x, verified = .ok x → x = c) (hs : t.allBySender[c.feePayer]? = some (q, r))
    (hr : addLast t verified a q r balance = .ok (c', t', d)) :
    c' = c ∧ t'.queues = Function.update t.queues c.feePayer (t.queues c.feePayer ++ [c]) ∧
      ∃ r', Currency.add a r = some r' ∧ t' = { addAllByFeeAndHashAndExpiration t c with
        allBySender := t.allBySender.insert c.feePayer (q.snoc c, r') } := by
  unfold addLast at hr
  split at hr
  · simp at hr
  next r' hadd =>
  split at hr
  · simp at hr
  split at hr
  · simp at hr
  next x =>
  obtain rfl := hv x rfl
  cases hr
  refine ⟨rfl, ?_, r', hadd, rfl⟩
  rw [queues_setQueue (t := t) (s := c'.feePayer) (q := q.snoc c') (r := r') (by simp)]
  rw [FSeq.toList_snoc, queues_of_some hs]

/-- What a successful `addFromGossipExn` did: one of its three branches. -/
theorem addFromGossipExn_cases {fuel : Nat} {clock : List Nat → GlobalSlot} {verify : Command H → Bool}
    {t t' : IndexedPool H} {x : Incoming H} {n : AccountNonce} {balance : Amount} {c' : Command H}
    {d : List (Command H)} (hr : addFromGossipExn fuel clock verify t x n balance = .ok (.ok (c', t', d))) :
    ∃ a, currencyConsumed t.constants x.command = some a ∧
      ((t.allBySender[x.command.feePayer]? = none ∧
          addFirst t (x.verified verify) x.command a n balance = .ok (c', t', d)) ∨
        ∃ q r last, t.allBySender[x.command.feePayer]? = some (q, r) ∧ q.toList.getLast? = some last ∧
          ((AccountNonce.succ last.nonce = x.command.nonce ∧
              addLast t (x.verified verify) a q r balance = .ok (c', t', d)) ∨
            (AccountNonce.succ last.nonce ≠ x.command.nonce ∧
              ∃ fuel', replace t (x.verified verify) x.command q last.nonce n (fun i t' cmd nonce =>
                addFromGossipExn fuel' (fun place => clock (i :: place)) verify t' (.checked cmd) nonce balance) =
                  .ok (.ok (c', t', d))))) := by
  cases fuel with
  | zero => simp [addFromGossipExn] at hr
  | succ fuel =>
    simp only [addFromGossipExn] at hr
    split at hr
    · simp at hr
    split at hr
    · simp at hr
    next a ha =>
    refine ⟨a, ha, ?_⟩
    split at hr
    · simp at hr
    split at hr
    · simp at hr
    split at hr
    · next hs => exact .inl ⟨hs, by simpa using hr⟩
    · next q r hs =>
      rw [Exn.assert_eq_ok, Exn.andThen_eq_ok] at hr
      obtain ⟨-, last, hlast, hr⟩ := hr
      refine .inr ⟨q, r, last, hs, FSeq.lastExn_eq_ok.1 hlast, ?_⟩
      split at hr
      · next hn => exact .inl ⟨hn, by simpa using hr⟩
      · next hn => exact .inr ⟨hn, fuel, hr⟩

/-- A nested call adds the next command of its sender. -/
theorem addFromGossipExn_extends {fuel : Nat} {clock : List Nat → GlobalSlot} {verify : Command H → Bool}
    {t t' : IndexedPool H} {x : Incoming H} {n : AccountNonce} {balance : Amount} {c' : Command H}
    {d : List (Command H)} (h : Wf t) (hnext : Next t x.command)
    (hr : addFromGossipExn fuel clock verify t x n balance = .ok (.ok (c', t', d))) :
    Extends t x.command c' t' := by
  have hv : ∀ y, x.verified verify = .ok y → y = x.command := fun _ => Incoming.command_of_verified
  obtain ⟨a, ha, ⟨hs, hr⟩ | ⟨q, r, last, hs, hlast, ⟨hn, hr⟩ | ⟨hn, -⟩⟩⟩ := addFromGossipExn_cases hr
  · exact addFirst_extends h hv hs ha hr
  · obtain ⟨hc, hqueues, r', hadd, rfl⟩ := addLast_extends hv hs hr
    exact ⟨hc, h.addLast hs hlast (hnext last (by rw [queues_of_some hs, hlast]; rfl)) ha hadd, hqueues⟩
  · have := hnext last (by rw [queues_of_some hs, hlast]; rfl)
    exact absurd (AccountNonce.succ_eq_iff.2 (.inl this)) hn

theorem next_of_dense {t : IndexedPool H} {c : Command H} {l : List (Command H)}
    (h : Dense (t.queues c.feePayer ++ c :: l)) : Next t c := by
  intro last hlast
  exact (List.isChain_append.1 h).2.2 last hlast c rfl

theorem chargeDropped_pool {t t' : IndexedPool H} {dropped' d : List (Command H)} {i i' : Fee} :
    ∀ {l : List (Command H)}, chargeDropped t dropped' i l = .ok (t', i', d) → t' = t
  | [], h => by cases h; rfl
  | c :: l, h => by
    rw [chargeDropped] at h
    split at h
    · exact chargeDropped_pool h
    · simp at h

/-- Re-adding the commands that followed in the queue keeps the invariant. -/
theorem readd_wf {add : Nat → IndexedPool H → Command H → AccountNonce → Exn (Added H)}
    (hadd : ∀ i t c n c' t' d, Wf t → Next t c → add i t c n = .ok (.ok (c', t', d)) → Extends t c c' t')
    {s : AccountId} {l : List (Command H)} {i : Nat} {t t' : IndexedPool H} {inc inc' : Fee}
    {n : AccountNonce} {d : List (Command H)} (h : Wf t) (hs : ∀ c ∈ l, c.feePayer = s)
    (hd : Dense (t.queues s ++ l)) (hr : readd add i t inc l n = .ok (.ok (t', inc', d))) : Wf t' := by
  induction l generalizing i t inc n with
  | nil => simp only [readd] at hr; cases hr; exact h
  | cons c l ih =>
    rw [readd, Exn.andThen_eq_ok] at hr
    obtain ⟨res, hres, hr⟩ := hr
    cases res with
    | error err =>
      simp only [Except.ok.injEq] at hr
      rw [chargeDropped_pool hr]
      exact h
    | ok p =>
      obtain ⟨c', t₁, dropped⟩ := p
      rw [Exn.assert_eq_ok] at hr
      have hcs : c.feePayer = s := hs c (by simp)
      have hnext : Next t c := next_of_dense (l := l) (hcs ▸ hd)
      have hext := hadd i t c _ c' t₁ dropped h hnext hres
      refine ih hext.wf (fun c hc => hs c (by simp [hc])) ?_ hr.2
      rw [hext.queues, hcs, Function.update_self, List.append_assoc]
      exact hd

/-- What a successful replacement did: it cut the queue at the command with
the same nonce, added the new one in its place, and re-added the rest. -/
theorem replace_cases {add : Nat → IndexedPool H → Command H → AccountNonce → Exn (Added H)}
    {t t' : IndexedPool H} {verified : Except CommandError (Command H)} {c c' : Command H}
    {q : FSeq (Command H)} {r : Amount} {last n : AccountNonce} {d : List (Command H)} (h : Wf t)
    (hv : ∀ x, verified = .ok x → x = c) (hs : t.allBySender[c.feePayer]? = some (q, r))
    (hr : replace t verified c q last n add = .ok (.ok (c', t', d))) :
    ∃ pre old post t₁ t₂ inc inc' d', t.queues c.feePayer = pre ++ old :: post ∧ old.nonce = c.nonce ∧
      Wf t₁ ∧ t₁.queues = Function.update t.queues c.feePayer pre ∧ t₁.constants = t.constants ∧
      add 0 t₁ c n = .ok (.ok (c', t₂, [])) ∧ Currency.sub c'.fee old.fee = some inc ∧
      readd add 1 t₂ inc post n = .ok (.ok (t', inc', d')) ∧ replaceFee ≤ inc' ∧ d = old :: d' := by
  rw [replace, Exn.andThen_eq_ok] at hr
  obtain ⟨first, -, hr⟩ := hr
  simp only [Exn.assert_eq_ok] at hr
  obtain ⟨-, hr⟩ := hr
  split at hr
  · simp at hr
  simp only [Exn.assert_eq_ok, Exn.andThen_eq_ok] at hr
  obtain ⟨-, toDrop, htoDrop, hnonce, hr⟩ := hr
  split at hr
  · simp at hr
  rw [Exn.andThen_eq_ok] at hr
  obtain ⟨⟨dropped, t₁⟩, hrem, hr⟩ := hr
  simp only [Exn.assert_eq_ok] at hr
  obtain ⟨hdropped, hr⟩ := hr
  split at hr
  · simp at hr
  next x =>
  obtain rfl := hv x rfl
  rw [FSeq.headExn_eq_ok, FSeq.splitAt_snd] at htoDrop
  generalize x.nonce.val - first.nonce.val = k at htoDrop hdropped
  obtain ⟨post, hpost⟩ : ∃ post, q.toList.drop k = toDrop :: post := by
    cases hl : q.toList.drop k with
    | nil => simp [hl] at htoDrop
    | cons e post => exact ⟨post, by simp [hl] at htoDrop; rw [htoDrop]⟩
  have hq : t.queues x.feePayer = q.toList.take k ++ toDrop :: post := by
    rw [queues_of_some hs, ← hpost, List.take_append_drop]
  obtain ⟨t₂, ht₂, hwf₂, hqueues₂, hconst₂⟩ := removeWithDependentsExn_ok h hq
  cases ht₂.symm.trans hrem
  rw [Exn.andThen_eq_ok] at hr
  obtain ⟨res, hres, hr⟩ := hr
  cases res with
  | error err => simp at hr
  | ok p =>
  obtain ⟨x', t₃, d'⟩ := p
  simp only [Exn.assert_eq_ok, List.isEmpty_iff] at hr
  obtain ⟨rfl, hr⟩ := hr
  rw [Exn.andThen_eq_ok] at hr
  obtain ⟨inc, hinc, hr⟩ := hr
  rw [Exn.valueExn_eq_ok] at hinc
  rw [Exn.andThen_eq_ok] at hr
  obtain ⟨res, hreadd, hr⟩ := hr
  cases res with
  | error err => simp at hr
  | ok p =>
  obtain ⟨t₄, inc', d''⟩ := p
  simp only at hr
  split at hr
  · simp at hr
  next hfee =>
  cases hr
  exact ⟨_, _, _, _, _, _, _, _, hq, by simpa using hnonce, hwf₂, hqueues₂, hconst₂, hres, hinc, hreadd,
    not_not.1 hfee, rfl⟩

/-- A queue cut at a command, with another of the same nonce in its place. -/
theorem Dense.replaced {pre post : List (Command H)} {old c : Command H} (h : Dense (pre ++ old :: post))
    (hn : old.nonce = c.nonce) : Dense (pre ++ c :: post) := by
  have hchain := List.isChain_append.1 h
  refine List.IsChain.append hchain.1 ?_ fun a ha b hb => ?_
  · cases post with
    | nil => exact List.isChain_singleton _
    | cons b post =>
      obtain ⟨hb, hpost⟩ := List.isChain_cons_cons.1 hchain.2.1
      exact List.isChain_cons_cons.2 ⟨by rw [hb, hn], hpost⟩
  · rw [List.head?_cons, Option.mem_some_iff] at hb
    rw [← hb, ← hn]
    exact hchain.2.2 a ha old rfl

theorem replace_wf {add : Nat → IndexedPool H → Command H → AccountNonce → Exn (Added H)}
    (hadd : ∀ i t c n c' t' d, Wf t → Next t c → add i t c n = .ok (.ok (c', t', d)) → Extends t c c' t')
    {t t' : IndexedPool H} {verified : Except CommandError (Command H)} {c c' : Command H}
    {q : FSeq (Command H)} {r : Amount} {last n : AccountNonce} {d : List (Command H)} (h : Wf t)
    (hv : ∀ x, verified = .ok x → x = c) (hs : t.allBySender[c.feePayer]? = some (q, r))
    (hr : replace t verified c q last n add = .ok (.ok (c', t', d))) : Wf t' := by
  obtain ⟨pre, old, post, t₁, t₂, inc, inc', d', hq, hn, hwf, hqueues, -, hres, -, hreadd, -, -⟩ :=
    replace_cases h hv hs hr
  have hdense := hq ▸ h.dense c.feePayer
  have hsender := hq ▸ h.sender c.feePayer
  have hdense' := Dense.replaced hdense hn
  have hext := hadd 0 t₁ c n c' t₂ [] hwf
    (next_of_dense (l := post) (by rw [hqueues, Function.update_self]; exact hdense')) hres
  refine readd_wf hadd hext.wf (fun x hx => hsender x (by simp [hx])) ?_ hreadd
  rw [hext.queues, hqueues, Function.update_self, Function.update_self, List.append_assoc]
  exact hdense'

theorem addFromBacktrack_wf {t t' : IndexedPool H} {now : GlobalSlot} {c : Command H} (h : Wf t)
    (hhead : ∀ head ∈ (t.queues c.feePayer).head?, head.nonce.val = c.nonce.val + 1)
    (hr : addFromBacktrack t now c = .ok (.ok t')) : Wf t' := by
  simp only [addFromBacktrack] at hr
  split at hr
  · simp at hr
  rw [Exn.andThen_eq_ok] at hr
  obtain ⟨a, ha, hr⟩ := hr
  rw [Exn.valueExn_eq_ok] at ha
  split at hr
  · next hs =>
    cases hr
    exact h.addFirst (queues_of_none hs) ha
  · next q r hs =>
    rw [Exn.andThen_eq_ok] at hr
    obtain ⟨first, hfirst, hr⟩ := hr
    rw [FSeq.headExn_eq_ok] at hfirst
    split at hr
    · simp at hr
    simp only [Exn.andThen_eq_ok, Exn.valueExn_eq_ok] at hr
    obtain ⟨t₁, ht₁, r', hadd, hr⟩ := hr
    cases hr
    have hq := queues_of_some hs
    have hq' : (t.queues c.feePayer).head? = some first := by rw [hq, hfirst]
    have hsender : first.feePayer = c.feePayer := h.sender _ first (List.mem_of_mem_head? hq')
    obtain ⟨m, hm, happ⟩ := h.applicable.removeExn (x := first) (by rw [IsHead, hsender, hq'])
    rw [removeApplicableExn, hm, Exn.andThen_ok, Except.ok.injEq] at ht₁
    subst ht₁
    obtain ⟨-, hres⟩ := h.stored _ _ _ hs
    have hnonce := hhead first hq'
    have hdense : Dense (q.cons c).toList := by
      rw [FSeq.toList_cons]
      exact (hq ▸ h.dense c.feePayer).cons hfirst hnonce
    refine h.insertQueue (by simp [hq, or_comm]) ?_ hdense ?_ ((happ.insert c).congr fun d => ?_)
    · have hnodup := hdense.nodup
      rw [FSeq.toList_cons, List.nodup_cons] at hnodup
      rw [InQueues, hq]
      exact hnodup.1
    · rw [FSeq.toList_cons]
      refine ⟨fun d hd => ?_, ?_⟩
      · rcases List.mem_cons.1 hd with rfl | hd
        · simp [ha]
        · exact hres.consumed d hd
      · rw [Currency.add_eq_some.1 hadd, hres.sum]
        simp [consumedVal_eq ha, Nat.add_comm]
    · rw [FSeq.toList_cons, List.head?_cons, Option.some.injEq]
      split
      · next hd =>
        rw [IsHead, hd, hq', Option.some.injEq]
        exact ⟨fun h' => (h'.resolve_left fun h => h.2 h.1.symm).symm, fun e => .inr e.symm⟩
      · next hd =>
        refine ⟨?_, fun h' => .inl ⟨h', fun e => hd (e ▸ hsender)⟩⟩
        rintro (⟨h', -⟩ | rfl)
        · exact h'
        · exact absurd rfl hd

/-! ## Steps and runs -/

/-- The operations of the pool, with their arguments. -/
inductive Op (H : TransactionHash) where
  | addFromGossip (fuel : Nat) (clock : List Nat → GlobalSlot) (verify : Command H → Bool)
      (cmd : Incoming H) (currentNonce : AccountNonce) (balance : Amount)
  | addFromBacktrack (now : GlobalSlot) (cmd : Command H)
  | handleCommittedTxn (committed : Command H) (feePayerBalance : Amount) (feePayerNonce : AccountNonce)
  | removeLowestFee
  | removeExpired (now : GlobalSlot)

namespace Op

/-- The operation succeeds on `t` and returns the pool `t'`. -/
def Returns (t : IndexedPool H) : Op H → IndexedPool H → Prop
  | .addFromGossip fuel clock verify x n balance, t' =>
    ∃ c d, addFromGossipExn fuel clock verify t x n balance = .ok (.ok (c, t', d))
  | .addFromBacktrack now c, t' => IndexedPool.addFromBacktrack t now c = .ok (.ok t')
  | .handleCommittedTxn c balance n, t' => ∃ d, IndexedPool.handleCommittedTxn t c balance n = .ok (.ok (t', d))
  | .removeLowestFee, t' => ∃ d, IndexedPool.removeLowestFee t = .ok (d, t')
  | .removeExpired now, t' => ∃ d, IndexedPool.removeExpired t now = .ok (d, t')

/-- How the pool's users call the operations: with the nonce of the head of
the sender's queue, and with a command that precedes the queue. -/
def Called (t : IndexedPool H) : Op H → Prop
  | .addFromGossip _ _ _ x n _ => ∀ head ∈ (t.queues x.command.feePayer).head?, n = head.nonce
  | .addFromBacktrack _ c =>
    ¬ InQueues t.queues c ∧ ∀ head ∈ (t.queues c.feePayer).head?, head.nonce.val = c.nonce.val + 1
  | _ => True

/-- A command with nonce 0 comes in for a sender whose last queued nonce is
the largest one. -/
def Wraps (t : IndexedPool H) : Op H → Prop
  | .addFromGossip _ _ _ x _ _ => x.command.nonce = 0 ∧
      ∃ last, (t.queues x.command.feePayer).getLast? = some last ∧ last.nonce = AccountNonce.maxValue
  | _ => False

end Op

/-- A queue that wrapped around is not dense. -/
theorem not_wf_of_wrapped {t : IndexedPool H} {s : AccountId} {l : List (Command H)} {last c : Command H}
    (hq : t.queues s = l ++ [c]) (hlast : l.getLast? = some last) (hc : c.nonce = 0) : ¬ Wf t := by
  intro h
  have hd := h.dense s
  rw [hq] at hd
  have := (List.isChain_append.1 hd).2.2 last hlast c rfl
  rw [hc] at this
  simp at this

theorem addFromGossipExn_wf_iff {fuel : Nat} {clock : List Nat → GlobalSlot} {verify : Command H → Bool}
    {t t' : IndexedPool H} {x : Incoming H} {n : AccountNonce} {balance : Amount} {c : Command H}
    {d : List (Command H)} (h : Wf t)
    (hr : addFromGossipExn fuel clock verify t x n balance = .ok (.ok (c, t', d))) :
    Wf t' ↔ ¬ (Op.addFromGossip fuel clock verify x n balance).Wraps t := by
  have hv : ∀ y, x.verified verify = .ok y → y = x.command := fun _ => Incoming.command_of_verified
  obtain ⟨a, ha, ⟨hs, hr⟩ | ⟨q, r, last, hs, hlast, ⟨hn, hr⟩ | ⟨hn, fuel', hr⟩⟩⟩ := addFromGossipExn_cases hr
  · refine iff_of_true (addFirst_extends h hv hs ha hr).wf ?_
    rintro ⟨-, last, hlast, -⟩
    simp [queues_of_none hs] at hlast
  · have hq := queues_of_some hs
    obtain ⟨hc, hqueues, r', hadd, rfl⟩ := addLast_extends hv hs hr
    rcases AccountNonce.succ_eq_iff.1 hn with hn | ⟨hmax, h0⟩
    · refine iff_of_true (h.addLast hs hlast hn ha hadd) ?_
      rintro ⟨h0, -⟩
      rw [h0] at hn
      simp at hn
    · refine iff_of_false ?_ (not_not.2 ⟨h0, last, by rw [hq, hlast], hmax⟩)
      exact not_wf_of_wrapped (by rw [hqueues, Function.update_self]) (by rw [hq, hlast]) h0
  · refine iff_of_true (replace_wf (fun i t c n c' t' d hwf hnext hadd =>
      addFromGossipExn_extends (x := .checked c) hwf hnext hadd) h hv hs hr) ?_
    rintro ⟨h0, last', hlast', hmax⟩
    rw [queues_of_some hs, hlast, Option.some.injEq] at hlast'
    subst hlast'
    exact hn (AccountNonce.succ_eq_iff.2 (.inr ⟨hmax, h0⟩))

/-- One step keeps the invariant exactly when it does not wrap around. -/
theorem Op.returns_wf_iff {t t' : IndexedPool H} {op : Op H} (h : Wf t) (hc : op.Called t)
    (hr : op.Returns t t') : Wf t' ↔ ¬ op.Wraps t := by
  cases op with
  | addFromGossip fuel clock verify x n balance =>
    obtain ⟨c, d, hr⟩ := hr
    exact addFromGossipExn_wf_iff h hr
  | addFromBacktrack now c => exact iff_of_true (addFromBacktrack_wf h hc.2 hr) not_false
  | handleCommittedTxn c balance n =>
    obtain ⟨d, hr⟩ := hr
    exact iff_of_true (handleCommittedTxn_wf h hr) not_false
  | removeLowestFee =>
    obtain ⟨d, hr⟩ := hr
    exact iff_of_true (removeLowestFee_wf h hr) not_false
  | removeExpired now =>
    obtain ⟨d, hr⟩ := hr
    exact iff_of_true (removeExpired_wf h hr) not_false

/-- The pools that runs from the empty pool reach, by steps that are called
as they should be and do not wrap around. -/
inductive Run (K : PoolConstants) : IndexedPool H → Prop where
  | empty : Run K (empty K)
  | step {t t' : IndexedPool H} (op : Op H) : Run K t → op.Called t → op.Returns t t' → ¬ op.Wraps t → Run K t'

theorem Run.wf {K : PoolConstants} {t : IndexedPool H} (h : Run K t) : Wf t := by
  induction h with
  | empty => exact wf_empty K
  | step op _ hc hr hw ih => exact (Op.returns_wf_iff ih hc hr).2 hw

/-- **The pool invariant.** The empty pool is well formed; a step from a
well-formed pool that succeeds returns a well-formed pool exactly when it
does not wrap a sender's nonces around; and every pool of a run whose steps
do not is well formed. -/
theorem pool_invariant (K : PoolConstants) :
    Wf (empty K : IndexedPool H) ∧
      (∀ (t t' : IndexedPool H) (op : Op H), Wf t → op.Called t → op.Returns t t' → (Wf t' ↔ ¬ op.Wraps t)) ∧
      ∀ t : IndexedPool H, Run K t → Wf t :=
  ⟨wf_empty K, fun _ _ _ h hc hr => Op.returns_wf_iff h hc hr, fun _ h => h.wf⟩

/-! ## A wrapped queue -/

/-- A command's code as its hash. -/
def encodeHash : TransactionHash := ⟨Nat, inferInstance, Encodable.encode, Encodable.encode_injective⟩

def sampleConstants : PoolConstants := ⟨0, none⟩

def samplePk : PublicKey := ⟨0, false⟩

def sampleSigned (fee : Fee) (nonce : AccountNonce) (pk : PublicKey) : SignedCommand where
  payload :=
    { common := ⟨fee, TokenId.default, pk, nonce, GlobalSlot.maxValue, 0⟩
      body := .stakeDelegation pk pk }
  signer := pk
  signature := 0

/-- A delegation, which consumes its fee. -/
def sampleCommand (fee : Fee) (nonce : AccountNonce) (pk : PublicKey) : Command encodeHash where
  data := .signedCommand (sampleSigned fee nonce pk)
  hash := encodeHash.hashCommand (.signedCommand (sampleSigned fee nonce pk))
  fee := fee
  feePayer := ⟨pk, TokenId.default⟩
  nonce := nonce
  hash_eq := rfl
  fee_eq := rfl
  feePayer_eq := rfl
  nonce_eq := rfl

theorem currencyConsumed_sample (fee : Fee) (nonce : AccountNonce) (pk : PublicKey) (K : PoolConstants) :
    currencyConsumed K (sampleCommand fee nonce pk) = some fee :=
  Currency.add_eq_some.2 (by simp [sampleCommand, bodyConsumed, sampleSigned])

/-- The pool that holds one command. -/
def samplePool (c : Command encodeHash) (a : Amount) : IndexedPool encodeHash :=
  { addAllByFeeAndHashAndExpiration (empty sampleConstants) c with
    applicableByFee := MapSet.insert ∅ c.fee c
    allBySender := (∅ : ExtTreeMap _ _ _).insert c.feePayer (FSeq.singleton c, a) }

theorem samplePool_wf {c : Command encodeHash} {a : Amount} (ha : currencyConsumed sampleConstants c = some a) :
    Wf (samplePool c a) := (wf_empty sampleConstants).addFirst (by simp [queues, empty]) ha

theorem samplePool_stored (c : Command encodeHash) (a : Amount) :
    (samplePool c a).allBySender[c.feePayer]? = some (FSeq.singleton c, a) := by
  simp [samplePool]

/-- The addition of a second command, the successor of the one in the pool. -/
theorem samplePool_add {n m : AccountNonce} (hn : AccountNonce.succ n = m) :
    (Op.addFromGossip 1 (fun _ => 0) (fun _ => true) (.checked (sampleCommand 1 m samplePk)) n 10).Returns
      (samplePool (sampleCommand 1 n samplePk) 1)
      { addAllByFeeAndHashAndExpiration (samplePool (sampleCommand 1 n samplePk) 1) (sampleCommand 1 m samplePk) with
        allBySender := (samplePool (sampleCommand 1 n samplePk) 1).allBySender.insert ⟨samplePk, TokenId.default⟩
          ((FSeq.singleton (sampleCommand 1 n samplePk)).snoc (sampleCommand 1 m samplePk), 2) } := by
  refine ⟨sampleCommand 1 m samplePk, [], ?_⟩
  have hs : (samplePool (sampleCommand 1 n samplePk) 1).allBySender[(sampleCommand 1 m samplePk).feePayer]? =
      some (FSeq.singleton (sampleCommand 1 n samplePk), 1) := samplePool_stored _ _
  have hlast : (FSeq.singleton (sampleCommand 1 n samplePk)).lastExn = .ok (sampleCommand 1 n samplePk) :=
    FSeq.lastExn_eq_ok.2 (by simp)
  have hexpiry : (samplePool (sampleCommand 1 n samplePk) 1).checkExpiry 0 (sampleCommand 1 m samplePk) = .ok () := by
    rw [checkExpiry]
    exact if_neg (show ¬ GlobalSlot.maxValue < (0 : GlobalSlot) by decide)
  have hadd : Currency.add 1 1 = some 2 := by decide
  simp only [addFromGossipExn, Incoming.command, hexpiry, currencyConsumed_sample, hs, FSeq.isEmpty_eq,
    FSeq.toList_singleton, hlast, Exn.andThen_ok]
  rw [show (sampleCommand 1 m samplePk).data.checkTokens = true from rfl,
    show (sampleCommand 1 m samplePk).data.feeToken = TokenId.default from rfl,
    show AccountNonce.succ (sampleCommand 1 n samplePk).nonce = (sampleCommand 1 m samplePk).nonce from hn]
  simp only [addLast, hadd, Incoming.verified]
  rfl

/-- **The pool invariant fails on the wrapped queue.** One command with the
largest nonce is queued, and a command with nonce 0 of the same sender is
added: the call succeeds and leaves a queue whose nonces are not
consecutive. -/
theorem pool_invariant_wraps :
    ∃ (t t' : IndexedPool encodeHash) (op : Op encodeHash), Wf t ∧ op.Called t ∧ op.Returns t t' ∧ ¬ Wf t' := by
  have hwf := samplePool_wf (currencyConsumed_sample 1 AccountNonce.maxValue samplePk sampleConstants)
  have hcalled : (Op.addFromGossip 1 (fun _ => 0) (fun _ => true) (.checked (sampleCommand 1 0 samplePk))
      AccountNonce.maxValue 10).Called (samplePool (sampleCommand 1 AccountNonce.maxValue samplePk) 1) := by
    intro head hhead
    have hq := queues_of_some (samplePool_stored (sampleCommand 1 AccountNonce.maxValue samplePk) 1)
    rw [FSeq.toList_singleton] at hq
    have : head = sampleCommand 1 AccountNonce.maxValue samplePk := by
      have hhead' : head ∈ (queues (samplePool (sampleCommand 1 AccountNonce.maxValue samplePk) 1)
        (sampleCommand 1 AccountNonce.maxValue samplePk).feePayer).head? := hhead
      rw [hq] at hhead'
      simpa [eq_comm] using hhead'
    rw [this]
    rfl
  have hr := samplePool_add (n := AccountNonce.maxValue) (m := 0) (by decide)
  refine ⟨_, _, _, hwf, hcalled, hr, ?_⟩
  refine not_wf_of_wrapped (s := ⟨samplePk, TokenId.default⟩) (l := [sampleCommand 1 AccountNonce.maxValue samplePk])
    (c := sampleCommand 1 0 samplePk) ?_ rfl rfl
  simp [queues]

/-- Two consecutive commands: the invariant holds after the second. -/
theorem pool_invariant_two :
    ∃ t t' : IndexedPool encodeHash, t'.queues ⟨samplePk, TokenId.default⟩ =
        [sampleCommand 1 0 samplePk, sampleCommand 1 1 samplePk] ∧
      (Wf t' ↔ ¬ (Op.addFromGossip 1 (fun _ => 0) (fun _ => true) (.checked (sampleCommand 1 1 samplePk)) 0 10).Wraps t) := by
  refine ⟨_, _, ?_, (pool_invariant (H := encodeHash) sampleConstants).2.1 (samplePool (sampleCommand 1 0 samplePk) 1) _ _
    (samplePool_wf (currencyConsumed_sample _ _ _ _)) ?_ (samplePool_add (by decide))⟩
  · simp [queues]
  · intro head hhead
    have hq := queues_of_some (samplePool_stored (sampleCommand 1 0 samplePk) 1)
    rw [FSeq.toList_singleton] at hq
    have hhead' : head ∈ (queues (samplePool (sampleCommand 1 0 samplePk) 1)
      (sampleCommand 1 0 samplePk).feePayer).head? := hhead
    rw [hq] at hhead'
    obtain rfl : sampleCommand 1 0 samplePk = head := by simpa using hhead'
    rfl

end Mina.IndexedPool
