/-
Replacement in the pool (`Indexed_pool.add_from_gossip_exn`): what becomes
of the commands that were queued from the replaced one on.

The new command takes the place of the one with its nonce; the commands that
followed are re-added one by one (`readd`). At the first that cannot be, its
fee and those of all after it come off the fee increment. The pool keeps the
ones before it. What is reported as dropped is the replaced command and the
ones AFTER it: the source passes the tail on (`Some dropped'`), so the
command at which re-adding stopped is in neither (`accounts_iff`). The fees
are right: the charge does include it (`pays_and_solvent`).
-/
import Mina.NetworkPool.Revalidate

namespace Mina.IndexedPool

open FSequence (FSeq)

variable {H : TransactionHash}

@[simp] theorem Incoming.command_checked (c : Command H) : (Incoming.checked c).command = c := rfl

/-! ## One addition at the end of a queue -/

/-- What lets `c` be added after `before` in the queue of its sender. -/
structure Admits (t : IndexedPool H) (now : GlobalSlot) (balance : Amount) (before : List (Command H))
    (c : Command H) : Prop where
  unexpired : t.checkExpiry now c = .ok ()
  tokens : c.data.checkTokens = true
  feeToken : c.data.feeToken = TokenId.default
  fits : total t.constants (before ++ [c]) ≤ balance.val

/-- The sender's reserved currency is that of its queue and at most the balance. -/
def Solvent (t : IndexedPool H) (s : AccountId) (balance : Amount) : Prop :=
  ∃ q r, t.allBySender[s]? = some (q, r) ∧ Reserved t.constants q.toList r ∧ r ≤ balance

/-- `t'` is `t` with `c` at the end of its sender's queue. -/
structure Appends (t : IndexedPool H) (c : Command H) (balance : Amount) (t' : IndexedPool H) : Prop where
  queues : t'.queues = Function.update t.queues c.feePayer (t.queues c.feePayer ++ [c])
  constants : t'.constants = t.constants
  solvent : Solvent t' c.feePayer balance

theorem Admits.congr {t t' : IndexedPool H} {now : GlobalSlot} {balance : Amount} {l : List (Command H)}
    {c : Command H} (h : t'.constants = t.constants) : Admits t' now balance l c ↔ Admits t now balance l c := by
  have hslot : t'.currentGlobalSlot now = t.currentGlobalSlot now := by rw [currentGlobalSlot, currentGlobalSlot, h]
  have hexpiry : t'.checkExpiry now c = t.checkExpiry now c := by rw [checkExpiry, checkExpiry, hslot]
  constructor
  · intro ha
    exact ⟨hexpiry ▸ ha.unexpired, ha.tokens, ha.feeToken, h ▸ ha.fits⟩
  · intro ha
    exact ⟨hexpiry ▸ ha.unexpired, ha.tokens, ha.feeToken, h ▸ ha.fits⟩

/-- The reserved currency after one more command. -/
theorem Reserved.snoc {K : PoolConstants} {l : List (Command H)} {c : Command H} {a r r' : Amount}
    (h : Reserved K l r) (ha : currencyConsumed K c = some a) (hr : Currency.add a r = some r') :
    Reserved K (l ++ [c]) r' := by
  refine reserved_append.2 ⟨fun d hd => ?_, ?_⟩
  · rcases List.mem_append.1 hd with hd | hd
    · exact h.consumed d hd
    · obtain rfl := List.mem_singleton.1 hd
      simp [ha]
  · rw [Currency.add_eq_some.1 hr, h.sum]
    simp [consumedVal_eq ha, Nat.add_comm]

theorem addFirst_appends {t t' : IndexedPool H} {verified : Except CommandError (Command H)}
    {c c' : Command H} {a balance : Amount} {n : AccountNonce} {d : List (Command H)}
    (hv : ∀ x, verified = .ok x → x = c) (hs : t.allBySender[c.feePayer]? = none)
    (ha : currencyConsumed t.constants c = some a)
    (hr : addFirst t verified c a n balance = .ok (c', t', d)) : c' = c ∧ d = [] ∧ Appends t c balance t' := by
  unfold addFirst at hr
  split at hr
  · simp at hr
  split at hr
  · simp at hr
  next hfits =>
  split at hr
  · simp at hr
  next x =>
  obtain rfl := hv x rfl
  cases hr
  refine ⟨rfl, rfl, ?_, rfl, FSeq.singleton c', a, by simp, ?_, not_not.1 hfits⟩
  · rw [queues_setQueue (t := t) (s := c'.feePayer) (q := FSeq.singleton c') (r := a) (by simp),
      queues_of_none hs, FSeq.toList_singleton, List.nil_append]
  · rw [FSeq.toList_singleton]
    exact Reserved.singleton ha

theorem addLast_appends {t t' : IndexedPool H} (h : Wf t) {verified : Except CommandError (Command H)}
    {c c' : Command H} {a r balance : Amount} {q : FSeq (Command H)} {d : List (Command H)}
    (hv : ∀ x, verified = .ok x → x = c) (hs : t.allBySender[c.feePayer]? = some (q, r))
    (ha : currencyConsumed t.constants c = some a)
    (hr : addLast t verified a q r balance = .ok (c', t', d)) : c' = c ∧ d = [] ∧ Appends t c balance t' := by
  unfold addLast at hr
  split at hr
  · simp at hr
  next r' hadd =>
  split at hr
  · simp at hr
  next hfits =>
  split at hr
  · simp at hr
  next x =>
  obtain rfl := hv x rfl
  cases hr
  refine ⟨rfl, rfl, ?_, rfl, q.snoc c', r', by simp, ?_, not_not.1 hfits⟩
  · rw [queues_setQueue (t := t) (s := c'.feePayer) (q := q.snoc c') (r := r') (by simp),
      queues_of_some hs, FSeq.toList_snoc]
  · rw [FSeq.toList_snoc]
    exact (h.stored _ _ _ hs).2.snoc ha hadd

/-- A call that adds the next command of its sender appends it. -/
theorem addFromGossipExn_appends {fuel : Nat} {clock : List Nat → GlobalSlot} {verify : Command H → Bool}
    {t t' : IndexedPool H} {x : Incoming H} {n : AccountNonce} {balance : Amount} {c' : Command H}
    {d : List (Command H)} (h : Wf t) (hnext : Next t x.command)
    (hr : addFromGossipExn fuel clock verify t x n balance = .ok (.ok (c', t', d))) :
    c' = x.command ∧ d = [] ∧ Wf t' ∧ Appends t x.command balance t' := by
  have hv : ∀ y, x.verified verify = .ok y → y = x.command := fun _ => Incoming.command_of_verified
  have hwf := (addFromGossipExn_extends h hnext hr).wf
  obtain ⟨a, ha, ⟨hs, hr⟩ | ⟨q, r, last, hs, hlast, ⟨hn, hr⟩ | ⟨hn, -⟩⟩⟩ := addFromGossipExn_cases hr
  · obtain ⟨hc, hd, happ⟩ := addFirst_appends hv hs ha hr
    exact ⟨hc, hd, hwf, happ⟩
  · obtain ⟨hc, hd, happ⟩ := addLast_appends h hv hs ha hr
    exact ⟨hc, hd, hwf, happ⟩
  · have := hnext last (by rw [queues_of_some hs, hlast]; rfl)
    exact absurd (AccountNonce.succ_eq_iff.2 (.inl this)) hn

/-- A command that is added passed the checks. -/
theorem addFromGossipExn_checks {fuel : Nat} {clock : List Nat → GlobalSlot} {verify : Command H → Bool}
    {t t' : IndexedPool H} {x : Incoming H} {n : AccountNonce} {balance : Amount} {c' : Command H}
    {d : List (Command H)} (hr : addFromGossipExn fuel clock verify t x n balance = .ok (.ok (c', t', d))) :
    t.checkExpiry (clock []) x.command = .ok () ∧ x.command.data.checkTokens = true ∧
      x.command.data.feeToken = TokenId.default := by
  cases fuel with
  | zero => simp [addFromGossipExn] at hr
  | succ fuel =>
    simp only [addFromGossipExn] at hr
    split at hr
    · simp at hr
    next hexp =>
    split at hr
    · simp at hr
    split at hr
    · simp at hr
    next htok =>
    split at hr
    · simp at hr
    next hfee =>
    exact ⟨hexp, by simpa using htok, not_not.1 hfee⟩

theorem Solvent.total_le {t : IndexedPool H} {s : AccountId} {balance : Amount} (h : Solvent t s balance) :
    total t.constants (t.queues s) ≤ balance.val := by
  obtain ⟨q, r, hs, hres, hle⟩ := h
  rw [queues_of_some hs, total, ← hres.sum]
  exact Fin.le_def.1 hle

/-- The next command of its sender is let in exactly when it is admitted. -/
theorem addFromGossipExn_next (fuel : Nat) (clock : List Nat → GlobalSlot) (verify : Command H → Bool)
    (n : AccountNonce) (balance : Amount) {t : IndexedPool H} {x : Incoming H} (h : Wf t)
    (hx : x.verified verify = .ok x.command) (hnext : Next t x.command)
    (hnil : t.queues x.command.feePayer = [] → n = x.command.nonce)
    (hc : (currencyConsumed t.constants x.command).isSome) :
    (Admits t (clock []) balance (t.queues x.command.feePayer) x.command ∧
        ∃ t', addFromGossipExn (fuel + 1) clock verify t x n balance = .ok (.ok (x.command, t', [])) ∧
          Wf t' ∧ Appends t x.command balance t') ∨
      (¬ Admits t (clock []) balance (t.queues x.command.feePayer) x.command ∧
        ∃ err, addFromGossipExn (fuel + 1) clock verify t x n balance = .ok (.error err)) := by
  obtain ⟨a, ha⟩ := Option.isSome_iff_exists.1 hc
  have hlast : ∀ q r, t.allBySender[x.command.feePayer]? = some (q, r) → (!q.isEmpty) = true ∧
      ∃ last, q.lastExn = .ok last ∧ AccountNonce.succ last.nonce = x.command.nonce := by
    intro q r hs
    obtain ⟨hne, -⟩ := h.stored _ _ _ hs
    have hlast := List.getLast?_eq_some_getLast hne
    refine ⟨by simpa using hne, _, FSeq.lastExn_eq_ok.2 hlast, AccountNonce.succ_eq_iff.2 (.inl ?_)⟩
    exact hnext _ (by rw [queues_of_some hs, hlast]; rfl)
  obtain ⟨res, hres⟩ : ∃ res, addFromGossipExn (fuel + 1) clock verify t x n balance = .ok res := by
    simp only [addFromGossipExn, ha]
    split
    · exact ⟨_, rfl⟩
    split
    · exact ⟨_, rfl⟩
    split
    · exact ⟨_, rfl⟩
    split
    · exact ⟨_, rfl⟩
    next q r hs =>
    obtain ⟨hne, last, hlast, hn⟩ := hlast q r hs
    rw [hne, hlast, Exn.assert_true, Exn.andThen_ok, if_pos hn]
    exact ⟨_, rfl⟩
  rw [hres]
  cases res with
  | ok p =>
    obtain ⟨c', t', d⟩ := p
    obtain ⟨rfl, rfl, hwf, happ⟩ := addFromGossipExn_appends h hnext hres
    obtain ⟨hexp, htok, hfee⟩ := addFromGossipExn_checks hres
    refine .inl ⟨⟨hexp, htok, hfee, ?_⟩, t', rfl, hwf, happ⟩
    have := happ.solvent.total_le
    rwa [happ.queues, happ.constants, Function.update_self] at this
  | error err =>
    refine .inr ⟨fun hadm => ?_, err, rfl⟩
    have hfits := hadm.fits
    rw [total_append] at hfits
    have hone : total t.constants [x.command] = a.val := by simp [total, consumedVal_eq ha]
    simp only [addFromGossipExn, hadm.unexpired, ha, hadm.tokens, hadm.feeToken, hx] at hres
    split at hres
    · next htok => simp at htok
    split at hres
    · next hfee => exact hfee rfl
    split at hres
    · next hs =>
      rw [queues_of_none hs, hone] at hfits
      have hle : a ≤ balance := Fin.le_def.2 (by omega)
      simp [addFirst, hnil (queues_of_none hs), hle] at hres
    · next q r hs =>
      obtain ⟨hne, last, hlast, hn⟩ := hlast q r hs
      have hreserved := (h.stored _ _ _ hs).2.sum
      rw [queues_of_some hs, hone, total, ← hreserved] at hfits
      have hb := balance.isLt
      have hadd : Currency.add a r = some ⟨a.val + r.val, by omega⟩ := Currency.add_eq_some.2 rfl
      have hle : balance ≥ (⟨a.val + r.val, by omega⟩ : Amount) := Fin.le_def.2 (by simp only; omega)
      rw [hne, hlast, Exn.assert_true, Exn.andThen_ok, if_pos hn] at hres
      simp [addLast, hadd, hle] at hres

/-! ## Re-adding -/

/-- The fees of a list of commands. -/
def fees (l : List (Command H)) : Nat := (l.map fun c => c.fee.val).sum

theorem chargeDropped_ok {t t' : IndexedPool H} {dropped' d : List (Command H)} {i i' : Fee} :
    ∀ {l : List (Command H)}, chargeDropped t dropped' i l = .ok (t', i', d) →
      t' = t ∧ d = dropped' ∧ i.val = i'.val + fees l
  | [], h => by
    cases h
    exact ⟨rfl, rfl, rfl⟩
  | c :: l, h => by
    rw [chargeDropped] at h
    split at h
    · next i₁ hsub =>
      obtain ⟨hle, hi⟩ := Currency.sub_eq_some.1 hsub
      obtain ⟨ht, hd, hsum⟩ := chargeDropped_ok h
      refine ⟨ht, hd, ?_⟩
      simp only [fees, List.map_cons, List.sum_cons] at hsum ⊢
      omega
    · simp at h

/-- What a nested addition answers for the next command of a sender that has
commands queued. -/
def Nested (clock : Nat → GlobalSlot) (balance : Amount)
    (add : Nat → IndexedPool H → Command H → AccountNonce → Exn (Added H)) : Prop :=
  ∀ i t c n res, Wf t → Next t c → t.queues c.feePayer ≠ [] → (currencyConsumed t.constants c).isSome →
    add i t c n = .ok res →
      (Admits t (clock i) balance (t.queues c.feePayer) c ∧
          ∃ t', res = .ok (c, t', []) ∧ Wf t' ∧ Appends t c balance t') ∨
        (¬ Admits t (clock i) balance (t.queues c.feePayer) c ∧ ∃ err, res = .error err)

theorem nested_addFromGossipExn (fuel : Nat) (clock : List Nat → GlobalSlot) (verify : Command H → Bool)
    (balance : Amount) : Nested (H := H) (fun i => clock [i]) balance fun i t c n =>
      addFromGossipExn fuel (fun place => clock (i :: place)) verify t (.checked c) n balance := by
  intro i t c n res h hnext hne hc hr
  cases fuel with
  | zero => simp [addFromGossipExn] at hr
  | succ fuel =>
    rcases addFromGossipExn_next fuel (fun place => clock (i :: place)) verify n balance (x := .checked c) h rfl
        hnext (fun hq => absurd hq hne) hc with
      ⟨hadm, t', hok, hwf, happ⟩ | ⟨hadm, err, herr⟩
    · exact .inl ⟨hadm, t', Except.ok.inj (hr.symm.trans hok), hwf, happ⟩
    · exact .inr ⟨hadm, err, Except.ok.inj (hr.symm.trans herr)⟩

/-- Every command of `kept` was let in after those before it, and the next
one was not. The `i`-th reading of the clock is that of the first of them. -/
structure Stops (t : IndexedPool H) (clock : Nat → GlobalSlot) (balance : Amount) (i : Nat)
    (before kept rest : List (Command H)) : Prop where
  admitted : ∀ l x l', kept = l ++ x :: l' → Admits t (clock (i + l.length)) balance (before ++ l) x
  refused : ∀ x ∈ rest.head?, ¬ Admits t (clock (i + kept.length)) balance (before ++ kept) x

/-- What re-adding the commands that followed in the queue did. -/
structure Readded (t t' : IndexedPool H) (clock : Nat → GlobalSlot) (balance : Amount) (i : Nat) (s : AccountId)
    (inc inc' : Fee) (l kept rest d : List (Command H)) : Prop where
  split : l = kept ++ rest
  queues : t'.queues = Function.update t.queues s (t.queues s ++ kept)
  solvent : Solvent t' s balance
  fees : inc.val = inc'.val + fees rest
  dropped : d = rest.tail
  stops : Stops t clock balance i (t.queues s) kept rest

theorem readd_run {add : Nat → IndexedPool H → Command H → AccountNonce → Exn (Added H)}
    {clock : Nat → GlobalSlot} {balance : Amount} (hadd : Nested clock balance add) {s : AccountId}
    {l : List (Command H)} {i : Nat} {t t' : IndexedPool H} {inc inc' : Fee} {n : AccountNonce}
    {d : List (Command H)} (h : Wf t) (hs : ∀ c ∈ l, c.feePayer = s) (hd : Dense (t.queues s ++ l))
    (hc : ∀ c ∈ l, (currencyConsumed t.constants c).isSome) (hsol : Solvent t s balance)
    (hne : t.queues s ≠ []) (hr : readd add i t inc l n = .ok (.ok (t', inc', d))) :
    ∃ kept rest, Readded t t' clock balance i s inc inc' l kept rest d := by
  induction l generalizing i t inc n with
  | nil =>
    simp only [readd] at hr
    cases hr
    exact ⟨[], [], rfl, by simp, hsol, rfl, rfl, by simp, by simp⟩
  | cons c l ih =>
    rw [readd, Exn.andThen_eq_ok] at hr
    obtain ⟨res, hres, hr⟩ := hr
    obtain rfl : c.feePayer = s := hs c (by simp)
    rcases hadd i t c _ res h (next_of_dense hd) hne (hc c (by simp)) hres with
      ⟨hadm, t₁, rfl, hwf, happ⟩ | ⟨hadm, err, rfl⟩
    · simp only [List.isEmpty_nil, Exn.assert_true] at hr
      have hqueue : t₁.queues c.feePayer = t.queues c.feePayer ++ [c] := by
        rw [happ.queues, Function.update_self]
      obtain ⟨kept, rest, hrun⟩ := ih hwf (fun x hx => hs x (by simp [hx]))
        (by rw [hqueue, List.append_assoc]; exact hd)
        (fun x hx => happ.constants ▸ hc x (by simp [hx])) happ.solvent (by simp [hqueue]) hr
      refine ⟨c :: kept, rest, by rw [hrun.split]; rfl, ?_, hrun.solvent, hrun.fees, hrun.dropped, ?_, ?_⟩
      · rw [hrun.queues, hqueue, happ.queues, Function.update_idem, List.append_assoc]
        rfl
      · intro k x k' hk
        cases k with
        | nil =>
          obtain ⟨rfl, -⟩ := List.cons.inj hk
          rw [List.append_nil]
          exact hadm
        | cons e k =>
          have := (Admits.congr happ.constants).1 (hrun.stops.admitted k x k' (List.cons.inj hk).2)
          rw [hqueue, List.append_assoc] at this
          rw [List.length_cons, Nat.add_comm k.length, ← Nat.add_assoc, ← (List.cons.inj hk).1]
          exact this
      · intro x hx hx'
        refine hrun.stops.refused x hx ((Admits.congr happ.constants).2 ?_)
        rw [hqueue, List.append_assoc, Nat.add_assoc, Nat.add_comm 1]
        exact hx'
    · simp only [Except.ok.injEq] at hr
      obtain ⟨rfl, rfl, hinc⟩ := chargeDropped_ok hr
      refine ⟨[], c :: _, rfl, by simp, hsol, hinc, rfl, by simp, ?_⟩
      intro x hx
      rw [List.head?_cons, Option.mem_some_iff] at hx
      subst hx
      rw [List.append_nil]
      exact hadm

/-! ## A whole call -/

/-- The command goes on the end of its sender's queue: nothing is queued, or
the source's successor of the last nonce is the command's. -/
def GoesLast (t : IndexedPool H) (c : Command H) : Prop :=
  ∀ last ∈ (t.queues c.feePayer).getLast?, AccountNonce.succ last.nonce = c.nonce

/-- What a replacement did: `c` is in the place of `old`, the commands
`kept` are after it and the commands `rest` are gone. -/
structure Replaced (t t' : IndexedPool H) (clock : Nat → GlobalSlot) (balance : Amount) (c : Command H)
    (d pre : List (Command H)) (old : Command H) (kept rest : List (Command H)) : Prop where
  queue : t.queues c.feePayer = pre ++ old :: (kept ++ rest)
  nonce : old.nonce = c.nonce
  queues : t'.queues = Function.update t.queues c.feePayer (pre ++ c :: kept)
  solvent : Solvent t' c.feePayer balance
  fees : replaceFee.val + fees (old :: rest) ≤ c.fee.val
  dropped : d = old :: rest.tail
  stops : Stops t clock balance 1 (pre ++ [c]) kept rest

theorem Stops.congr {t t' : IndexedPool H} {clock : Nat → GlobalSlot} {balance : Amount} {i : Nat}
    {l kept rest : List (Command H)} (h : t'.constants = t.constants) (hs : Stops t' clock balance i l kept rest) :
    Stops t clock balance i l kept rest where
  admitted k x k' hk := (Admits.congr h).1 (hs.admitted k x k' hk)
  refused x hx hadm := hs.refused x hx ((Admits.congr h).2 hadm)

/-- What a call that succeeds did. -/
theorem addFromGossipExn_run {fuel : Nat} {clock : List Nat → GlobalSlot} {verify : Command H → Bool}
    {t t' : IndexedPool H} {x : Incoming H} {n : AccountNonce} {balance : Amount} {c' : Command H}
    {d : List (Command H)} (h : Wf t)
    (hr : addFromGossipExn fuel clock verify t x n balance = .ok (.ok (c', t', d))) :
    c' = x.command ∧ ((GoesLast t x.command ∧ d = [] ∧ Appends t x.command balance t') ∨
      (¬ GoesLast t x.command ∧ ∃ pre old kept rest,
        Replaced t t' (fun i => clock [i]) balance x.command d pre old kept rest)) := by
  have hv : ∀ y, x.verified verify = .ok y → y = x.command := fun _ => Incoming.command_of_verified
  obtain ⟨a, ha, ⟨hs, hr⟩ | ⟨q, r, last, hs, hlast, ⟨hn, hr⟩ | ⟨hn, fuel', hr⟩⟩⟩ := addFromGossipExn_cases hr
  · obtain ⟨hc, hd, happ⟩ := addFirst_appends hv hs ha hr
    exact ⟨hc, .inl ⟨by simp [GoesLast, queues_of_none hs], hd, happ⟩⟩
  · obtain ⟨hc, hd, happ⟩ := addLast_appends h hv hs ha hr
    exact ⟨hc, .inl ⟨by simpa [GoesLast, queues_of_some hs, hlast] using hn, hd, happ⟩⟩
  have hgoes : ¬ GoesLast t x.command := by simpa [GoesLast, queues_of_some hs, hlast] using hn
  generalize x.command = c at *
  obtain ⟨pre, old, post, t₁, t₂, inc, inc', d', hq, hnonce, hwf, hqueues, hconst, hres, hinc, hreadd, hfee,
    rfl⟩ := replace_cases h hv hs hr
  have hsender := hq ▸ h.sender c.feePayer
  have hdense := (hq ▸ h.dense c.feePayer).replaced hnonce
  have hreserved : ∀ y ∈ pre ++ old :: post, (currencyConsumed t.constants y).isSome := by
    rw [← hq, queues_of_some hs]
    exact (h.stored _ _ _ hs).2.consumed
  have hnext : Next t₁ c := next_of_dense (l := post) (by rw [hqueues, Function.update_self]; exact hdense)
  obtain ⟨hcmd, -, hwf₂, happ⟩ := addFromGossipExn_appends (x := .checked c) hwf hnext hres
  rw [hcmd] at hinc
  simp only [Incoming.command_checked] at happ hinc
  have hqueue : t₂.queues c.feePayer = pre ++ [c] := by
    rw [happ.queues, hqueues, Function.update_self, Function.update_self]
  obtain ⟨kept, rest, hrun⟩ := readd_run (nested_addFromGossipExn fuel' clock verify balance) hwf₂
    (fun y hy => hsender y (by simp [hy])) (by rw [hqueue, List.append_assoc]; exact hdense)
    (fun y hy => by rw [happ.constants, hconst]; exact hreserved y (by simp [hy])) happ.solvent
    (by simp [hqueue]) hreadd
  obtain ⟨hle, hinc⟩ := Currency.sub_eq_some.1 hinc
  refine ⟨hcmd, .inr ⟨hgoes, pre, old, kept, rest, by rw [hq, hrun.split], hnonce, ?_, hrun.solvent, ?_,
    by rw [hrun.dropped], ?_⟩⟩
  · rw [hrun.queues, hqueue, happ.queues, hqueues, Function.update_idem, Function.update_idem, List.append_assoc]
    rfl
  · have hsum := hrun.fees
    have hfee := Fin.le_def.1 hfee
    simp only [fees, List.map_cons, List.sum_cons] at hsum ⊢
    omega
  · have hstops := hrun.stops
    rw [hqueue] at hstops
    exact hstops.congr (happ.constants.trans hconst)

/-! ## When a replacement succeeds -/

theorem chargeDropped_of_le (t : IndexedPool H) (dropped' : List (Command H)) {i : Fee} :
    ∀ {l : List (Command H)}, fees l ≤ i.val →
      ∃ i', chargeDropped t dropped' i l = .ok (t, i', dropped') ∧ i.val = i'.val + fees l
  | [], _ => ⟨i, rfl, rfl⟩
  | c :: l, h => by
    simp only [fees, List.map_cons, List.sum_cons] at h ⊢
    have hi := i.isLt
    have hsub : Currency.sub i c.fee = some ⟨i.val - c.fee.val, by omega⟩ :=
      Currency.sub_eq_some.2 ⟨by omega, rfl⟩
    obtain ⟨i', hok, hsum⟩ := chargeDropped_of_le t dropped' (i := ⟨i.val - c.fee.val, by omega⟩) (l := l) (by simp only [fees]; omega)
    refine ⟨i', ?_, ?_⟩
    · rw [chargeDropped, hsub]
      exact hok
    · simp only [fees] at hsum
      omega

section Succeeds

variable (fuel : Nat) (clock : List Nat → GlobalSlot) (verify : Command H → Bool) (balance : Amount)

theorem readd_of_stops (kept rest : List (Command H)) (i : Nat) (inc : Fee) (n : AccountNonce) {s : AccountId}
    {t : IndexedPool H} (h : Wf t) (hs : ∀ c ∈ kept ++ rest, c.feePayer = s)
    (hd : Dense (t.queues s ++ (kept ++ rest)))
    (hc : ∀ c ∈ kept ++ rest, (currencyConsumed t.constants c).isSome) (hne : t.queues s ≠ [])
    (hstops : Stops t (fun i => clock [i]) balance i (t.queues s) kept rest) (hfees : fees rest ≤ inc.val) :
    ∃ t' inc', readd (fun i t c n =>
        addFromGossipExn (fuel + 1) (fun place => clock (i :: place)) verify t (.checked c) n balance)
          i t inc (kept ++ rest) n = .ok (.ok (t', inc', rest.tail)) ∧ inc.val = inc'.val + fees rest := by
  induction kept generalizing i t n with
  | nil =>
    cases rest with
    | nil => exact ⟨t, inc, rfl, rfl⟩
    | cons c rest =>
      obtain rfl : c.feePayer = s := hs c (by simp)
      have hrefused := hstops.refused c rfl
      rw [List.append_nil] at hrefused
      rcases addFromGossipExn_next fuel (fun place => clock (i :: place)) verify (AccountNonce.succ n) balance
          (x := .checked c) h rfl (next_of_dense hd) (fun hq => absurd hq hne) (hc c (by simp)) with ⟨hadm, -⟩ | ⟨-, err, herr⟩
      · exact absurd hadm hrefused
      · obtain ⟨inc', hcharge, hsum⟩ := chargeDropped_of_le t rest hfees
        refine ⟨t, inc', ?_, hsum⟩
        rw [List.nil_append, readd]
        simp only [herr, Exn.andThen_ok, hcharge, List.tail_cons]
  | cons c kept ih =>
    obtain rfl : c.feePayer = s := hs c (by simp)
    have hadmitted := hstops.admitted [] c kept rfl
    rw [List.append_nil] at hadmitted
    rcases addFromGossipExn_next fuel (fun place => clock (i :: place)) verify (AccountNonce.succ n) balance
        (x := .checked c) h rfl (next_of_dense hd) (fun hq => absurd hq hne) (hc c (by simp)) with ⟨-, t₁, hok, hwf, happ⟩ | ⟨hadm, -⟩
    swap
    · exact absurd hadmitted hadm
    simp only [Incoming.command_checked] at hok happ
    have hqueue : t₁.queues c.feePayer = t.queues c.feePayer ++ [c] := by
      rw [happ.queues, Function.update_self]
    have hstops' : Stops t₁ (fun i => clock [i]) balance (i + 1) (t₁.queues c.feePayer) kept rest := by
      rw [hqueue]
      refine ⟨fun l x l' hl => (Admits.congr happ.constants).2 ?_, fun x hx hadm => ?_⟩
      · have := hstops.admitted (c :: l) x l' (by rw [hl]; rfl)
        rw [List.append_assoc, Nat.add_assoc, Nat.add_comm 1]
        exact this
      · refine hstops.refused x hx ?_
        have := (Admits.congr happ.constants).1 hadm
        rw [List.append_assoc, Nat.add_assoc, Nat.add_comm 1] at this
        exact this
    obtain ⟨t', inc', hreadd, hsum⟩ := ih (i + 1) (AccountNonce.succ n) hwf
      (fun x hx => hs x (by simp at hx ⊢; tauto)) (by rw [hqueue, List.append_assoc]; exact hd)
      (fun x hx => happ.constants ▸ hc x (by simp at hx ⊢; tauto)) (by simp [hqueue]) hstops'
    refine ⟨t', inc', ?_, hsum⟩
    rw [List.cons_append, readd]
    simp only [hok, Exn.andThen_ok, List.isEmpty_nil, Exn.assert_true]
    exact hreadd

/-- The nonces of a stored queue, cut at a command. -/
theorem Dense.cut {l pre post : List (Command H)} {old first last : Command H} (h : Dense l)
    (hl : l = pre ++ old :: post) (hfirst : l.head? = some first) (hlast : l.getLast? = some last) :
    old.nonce.val = first.nonce.val + pre.length ∧ last.nonce.val = old.nonce.val + post.length := by
  subst hl
  have hold := h.nonce_append hfirst
  refine ⟨hold, ?_⟩
  rcases List.eq_nil_or_concat post with rfl | ⟨mid, z, rfl⟩
  · simp only [List.getLast?_append, List.getLast?_singleton, Option.some_or, Option.some.injEq] at hlast
    rw [hlast, List.length_nil, Nat.add_zero]
  · have hz : z = last := by simpa [List.getLast?_cons] using hlast
    have hsplit : pre ++ old :: (mid ++ [z]) = (pre ++ old :: mid) ++ z :: [] := by simp
    rw [List.concat_eq_append, hsplit] at h hfirst
    have := h.nonce_append hfirst
    rw [hz] at this
    simp only [List.length_append, List.length_cons, List.concat_eq_append, List.length_nil] at this ⊢
    omega

/-- A command that pays enough and can be added in the place of the one with
its nonce replaces it. -/
theorem addFromGossipExn_replaces (pre kept rest : List (Command H)) (n : AccountNonce) {t : IndexedPool H}
    {x : Incoming H} {old : Command H} (h : Wf t) (hx : x.verified verify = .ok x.command)
    (hq : t.queues x.command.feePayer = pre ++ old :: (kept ++ rest)) (hnonce : old.nonce = x.command.nonce)
    (hn : ∀ first ∈ (t.queues x.command.feePayer).head?, first.nonce = n) (hlast : ¬ GoesLast t x.command)
    (hexp : t.checkExpiry (clock []) x.command = .ok ()) (hc : (currencyConsumed t.constants x.command).isSome)
    (hadm : Admits t (clock [0]) balance pre x.command)
    (hfees : replaceFee.val + fees (old :: rest) ≤ x.command.fee.val)
    (hstops : Stops t (fun i => clock [i]) balance 1 (pre ++ [x.command]) kept rest) :
    ∃ t', addFromGossipExn (fuel + 2) clock verify t x n balance =
      .ok (.ok (x.command, t', old :: rest.tail)) := by
  obtain ⟨a, ha⟩ := Option.isSome_iff_exists.1 hc
  obtain ⟨q, r, hs, hqs⟩ := Wf.stored_of_mem (t := t) (s := x.command.feePayer) (by simp [hq])
  have hl : q.toList = pre ++ old :: (kept ++ rest) := hqs ▸ hq
  have hdense := h.dense x.command.feePayer
  have hsender := h.sender x.command.feePayer
  rw [hqs] at hdense hn
  rw [hq] at hsender
  obtain ⟨first, hfirst⟩ : ∃ first, q.toList.head? = some first := by cases pre <;> simp [hl]
  obtain ⟨last, hlast'⟩ : ∃ last, q.toList.getLast? = some last :=
    ⟨_, List.getLast?_eq_some_getLast (by simp [hl])⟩
  have hsucc : AccountNonce.succ last.nonce ≠ x.command.nonce := by
    simpa [GoesLast, hqs, hlast'] using hlast
  obtain ⟨hold, hlastNonce⟩ := hdense.cut hl hfirst hlast'
  have hfirstNonce : first.nonce = n := hn first (by rw [hfirst]; rfl)
  have hempty : (!q.isEmpty) = true := by simp [hl]
  have hindex : x.command.nonce.val - first.nonce.val = pre.length := by rw [← hnonce]; omega
  have hbetween : first.nonce ≤ x.command.nonce ∧ x.command.nonce ≤ last.nonce := by
    rw [← hnonce, Fin.le_def, Fin.le_def]
    omega
  have hlength : (q.length : Int) = (last.nonce.val : Int) - first.nonce.val + 1 := by
    rw [FSeq.length_eq, hl]
    simp only [List.length_append, List.length_cons] at hlastNonce ⊢
    omega
  have hdrop : (q.splitAt pre.length).2.toList = old :: (kept ++ rest) := by simp [hl]
  have hhead : (q.splitAt pre.length).2.headExn = .ok old := by rw [FSeq.headExn_eq_ok, hdrop]; rfl
  simp only [fees, List.map_cons, List.sum_cons] at hfees
  have hfee : x.command.fee ≥ old.fee := Fin.le_def.2 (by omega)
  have hincrement : Currency.sub x.command.fee old.fee =
      some ⟨x.command.fee.val - old.fee.val, by omega⟩ := Currency.sub_eq_some.2 ⟨by omega, rfl⟩
  obtain ⟨t₁, hremove, hwf, hqueues, hconst⟩ := removeWithDependentsExn_ok h hq
  -- the new command
  have hdense' := Dense.replaced (hl ▸ hdense) hnonce
  have hqueue : t₁.queues x.command.feePayer = pre := by rw [hqueues, Function.update_self]
  have hnext : Next t₁ x.command := next_of_dense (l := kept ++ rest) (by rw [hqueue]; exact hdense')
  have hnil : t₁.queues x.command.feePayer = [] → n = x.command.nonce := by
    rw [hqueue, ← hnonce, ← hfirstNonce]
    rintro rfl
    exact Fin.ext (by simpa using hold.symm)
  rcases addFromGossipExn_next fuel (fun place => clock (0 :: place)) verify n balance (x := .checked x.command)
      hwf rfl hnext hnil (hconst ▸ hc) with
    ⟨-, t₂, hadd, hwf₂, happ⟩ | ⟨hrefused, -⟩
  swap
  · refine absurd ((Admits.congr hconst).2 ?_) hrefused
    rw [Incoming.command_checked, hqueue]
    exact hadm
  simp only [Incoming.command_checked] at hadd happ
  -- the commands that followed
  have hqueue₂ : t₂.queues x.command.feePayer = pre ++ [x.command] := by
    rw [happ.queues, Function.update_self, hqueue]
  have hconst₂ : t₂.constants = t.constants := happ.constants.trans hconst
  obtain ⟨t₃, inc', hreadd, hsum⟩ := readd_of_stops fuel clock verify balance kept rest 1
    ⟨x.command.fee.val - old.fee.val, by omega⟩ n (s := x.command.feePayer) hwf₂
    (fun y hy => hsender y (by simp at hy ⊢; tauto)) (by rw [hqueue₂, List.append_assoc]; exact hdense')
    (fun y hy => by rw [hconst₂]; exact (h.stored _ _ _ hs).2.consumed y (by rw [hl]; simp at hy ⊢; tauto))
    (by simp [hqueue₂]) (by rw [hqueue₂]; exact hstops.congr hconst₂.symm) (by simp only [fees]; omega)
  have hpays : inc' ≥ replaceFee := Fin.le_def.2 (by simp only [fees] at hsum; omega)
  refine ⟨t₃, ?_⟩
  subst hfirstNonce
  rw [addFromGossipExn]
  simp only [hexp, ha, hadm.tokens, hadm.feeToken, hs, hempty, Exn.assert_true, FSeq.lastExn_eq_ok.2 hlast',
    Exn.andThen_ok, hsucc, if_false, hx, replace, FSeq.headExn_eq_ok.2 hfirst, hbetween, hlength, hindex, hhead,
    hdrop, hnonce, hfee, hremove, decide_true, and_self, not_true, hadd, hincrement, Exn.valueExn_some, hreadd,
    hpays, ne_eq, Bool.not_true, Bool.false_eq_true, List.isEmpty_nil]

end Succeeds

/-! ## The commands of the pool -/

/-- Every command of the old pool and the new command is in the new pool or
dropped, not both, and once. -/
structure Accounted (t t' : IndexedPool H) (c : Command H) (dropped : List (Command H)) : Prop where
  commands : ∀ y, InQueues t'.queues y ∨ y ∈ dropped ↔ InQueues t.queues y ∨ y = c
  disjoint : ∀ y ∈ dropped, ¬ InQueues t'.queues y
  nodup : dropped.Nodup
  queues_nodup : ∀ s, (t'.queues s).Nodup

/-- Every command queued after the one with `c`'s nonce can be added after
the ones before it, with `c` in the place of that one. -/
def ReaddsAll (t : IndexedPool H) (clock : Nat → GlobalSlot) (balance : Amount) (c : Command H) : Prop :=
  ∀ pre old l y l', t.queues c.feePayer = pre ++ old :: (l ++ y :: l') → old.nonce = c.nonce →
    Admits t (clock (l.length + 1)) balance (pre ++ c :: l) y

theorem Appends.inQueues {t t' : IndexedPool H} {c : Command H} {balance : Amount}
    (h : Appends t c balance t') (y : Command H) : InQueues t'.queues y ↔ InQueues t.queues y ∨ y = c := by
  rw [h.queues, mem_update]
  split
  · next hy => rw [InQueues, hy, List.mem_append, List.mem_singleton]
  · next hy => exact ⟨.inl, fun h => h.resolve_right fun e => hy (by rw [e])⟩

theorem Appends.accounted_iff {t t' : IndexedPool H} (h : Wf t) {c : Command H} {balance : Amount}
    (happ : Appends t c balance t') : Accounted t t' c [] ↔ c ∉ t.queues c.feePayer := by
  constructor
  · intro hacc hc
    have hnodup := hacc.queues_nodup c.feePayer
    rw [happ.queues, Function.update_self] at hnodup
    exact List.disjoint_of_nodup_append hnodup hc (List.mem_singleton_self c)
  · intro hc
    refine ⟨fun y => by simpa using happ.inQueues y, by simp, List.nodup_nil, fun s => ?_⟩
    rw [happ.queues, Function.update_apply]
    split
    · refine List.nodup_append_comm.1 (List.nodup_cons.2 ⟨hc, (h.dense _).nodup⟩)
    · exact (h.dense s).nodup

/-- In a queue, a nonce belongs to one command. -/
theorem Dense.eq_of_nonce {l : List (Command H)} (h : Dense l) {a b : Command H} (ha : a ∈ l) (hb : b ∈ l)
    (hn : a.nonce = b.nonce) : a = b := by
  refine List.inj_on_of_nodup_map (f := (·.nonce)) (List.pairwise_map.2 (h.nonce_lt.imp ?_)) ha hb hn
  intro a b hlt heq
  rw [heq] at hlt
  exact Nat.lt_irrefl _ hlt

section Replaced

variable {t t' : IndexedPool H} {clock : Nat → GlobalSlot} {balance : Amount} {c old : Command H}
  {d pre kept rest : List (Command H)}

theorem Replaced.dense (h : Wf t) (hr : Replaced t t' clock balance c d pre old kept rest) :
    Dense (pre ++ old :: (kept ++ rest)) := hr.queue ▸ h.dense c.feePayer

/-- The new command was not queued: it pays more than the one it replaces. -/
theorem Replaced.not_mem (h : Wf t) (hr : Replaced t t' clock balance c d pre old kept rest) :
    c ∉ t.queues c.feePayer := by
  intro hc
  have hold : old = c := (h.dense c.feePayer).eq_of_nonce (by rw [hr.queue]; simp) hc hr.nonce
  have hfees := hr.fees
  have hpos : 0 < replaceFee.val := by decide
  simp only [IndexedPool.fees, List.map_cons, List.sum_cons, hold] at hfees
  omega

theorem Replaced.accounted_iff (h : Wf t) (hr : Replaced t t' clock balance c d pre old kept rest) :
    Accounted t t' c d ↔ rest = [] := by
  have hsender : ∀ y ∈ pre ++ old :: (kept ++ rest), y.feePayer = c.feePayer := by
    rw [← hr.queue]
    exact h.sender c.feePayer
  have hdense := hr.dense h
  have hnodup := hdense.nodup
  have hc := hr.not_mem h
  rw [hr.queue] at hc
  have hin : ∀ y, InQueues t'.queues y ↔
      if y.feePayer = c.feePayer then y ∈ pre ++ c :: kept else InQueues t.queues y := by
    intro y
    rw [hr.queues, mem_update]
  constructor
  · intro hacc
    rcases rest with _ | ⟨y, rest⟩
    · rfl
    have hy : InQueues t.queues y := by
      rw [InQueues, hsender y (by simp), hr.queue]
      simp
    have hmem := (hacc.commands y).2 (.inl hy)
    rw [hin, if_pos (hsender y (by simp)), hr.dropped] at hmem
    simp only [List.nodup_append, List.nodup_cons, List.mem_append, List.mem_cons, List.tail_cons] at hnodup hmem hc
    grind
  · rintro rfl
    rw [List.append_nil] at hsender hnodup hc hdense
    have hdrop := hr.dropped
    have hq := hr.queue
    rw [List.append_nil] at hq
    simp only [List.tail_nil] at hdrop
    subst hdrop
    have hsub : (pre ++ c :: kept).Nodup := (hdense.replaced hr.nonce).nodup
    refine ⟨fun y => ?_, fun y hy => ?_, List.nodup_singleton old, fun s => ?_⟩
    · rw [hin, List.mem_singleton]
      by_cases hy : y.feePayer = c.feePayer
      · rw [if_pos hy, InQueues, hy, hq]
        simp only [List.mem_append, List.mem_cons]
        tauto
      · have hne : y ≠ old := fun e => hy (e ▸ hsender old (by simp))
        have hne' : y ≠ c := fun e => hy (by rw [e])
        rw [if_neg hy]
        simp [hne, hne']
    · obtain rfl := List.mem_singleton.1 hy
      rw [hin, if_pos (hsender y (by simp))]
      simp only [List.nodup_append, List.nodup_cons, List.mem_append, List.mem_cons] at hnodup hc ⊢
      grind
    · rw [hr.queues, Function.update_apply]
      split
      · exact hsub
      · exact (h.dense s).nodup

/-- All are re-added exactly when each can be. -/
theorem Replaced.readdsAll_iff (h : Wf t) (hr : Replaced t t' clock balance c d pre old kept rest) :
    ReaddsAll t clock balance c ↔ rest = [] := by
  constructor
  · intro hall
    rcases rest with _ | ⟨y, rest⟩
    · rfl
    have hadm := hall pre old kept y rest hr.queue hr.nonce
    refine absurd ?_ (hr.stops.refused y rfl)
    rw [Nat.add_comm, List.append_assoc]
    exact hadm
  · rintro rfl pre' old' l y l' hq hn
    have hold : old = old' :=
      (h.dense c.feePayer).eq_of_nonce (by rw [hr.queue]; simp) (by rw [hq]; simp) (hr.nonce.trans hn.symm)
    subst hold
    have hnodup := (h.dense c.feePayer).nodup
    have hcut := hr.queue.symm.trans hq
    rw [hr.queue] at hnodup
    rw [List.append_nil] at hcut hnodup
    rw [List.nodup_middle, List.nodup_cons, List.mem_append, not_or] at hnodup
    obtain ⟨rfl, -, hkept⟩ := (List.append_cons_inj_of_notMem hnodup.1.1 hnodup.1.2).1 hcut
    have hadm := hr.stops.admitted l y l' hkept
    rw [Nat.add_comm, List.append_assoc] at hadm
    exact hadm

end Replaced

/-- **What `add_from_gossip_exn` drops.** A call on a well-formed pool that
succeeds accounts for every command exactly when the command was not queued
and, unless it goes on the end of the queue, every command queued after the
one it replaces can be re-added. -/
theorem accounts_iff {fuel : Nat} {clock : List Nat → GlobalSlot} {verify : Command H → Bool}
    {t t' : IndexedPool H} {x : Incoming H} {n : AccountNonce} {balance : Amount} {c : Command H}
    {d : List (Command H)} (h : Wf t)
    (hr : addFromGossipExn fuel clock verify t x n balance = .ok (.ok (c, t', d))) :
    c = x.command ∧ (Accounted t t' c d ↔ c ∉ t.queues c.feePayer ∧
      (GoesLast t c ∨ ReaddsAll t (fun i => clock [i]) balance c)) := by
  obtain ⟨rfl, hrun⟩ := addFromGossipExn_run h hr
  refine ⟨rfl, ?_⟩
  rcases hrun with ⟨hlast, rfl, happ⟩ | ⟨hlast, pre, old, kept, rest, hrun⟩
  · rw [happ.accounted_iff h]
    exact ⟨fun hc => ⟨hc, .inl hlast⟩, fun hc => hc.1⟩
  · rw [hrun.accounted_iff h, ← hrun.readdsAll_iff h]
    exact ⟨fun hall => ⟨hrun.not_mem h, .inr hall⟩, fun hall => hall.2.resolve_left hlast⟩

theorem checkExpiry_sample (t : IndexedPool encodeHash) (ht : t.constants = sampleConstants) (fee : Fee)
    (nonce : AccountNonce) : t.checkExpiry 0 (sampleCommand fee nonce samplePk) = .ok () := by
  rw [checkExpiry, currentGlobalSlot, ht]
  exact if_neg (show ¬ GlobalSlot.maxValue < (0 : GlobalSlot) by decide)

theorem total_sample (fee : Fee) (nonce : AccountNonce) (l : List (Command encodeHash)) :
    total sampleConstants (sampleCommand fee nonce samplePk :: l) = fee.val + total sampleConstants l := by
  rw [total, List.map_cons, List.sum_cons,
    consumedVal_eq (currencyConsumed_sample fee nonce samplePk sampleConstants)]
  rfl

theorem admits_sample {t : IndexedPool encodeHash} (ht : t.constants = sampleConstants) {balance : Amount}
    {l : List (Command encodeHash)} {fee : Fee} {nonce : AccountNonce} :
    Admits t 0 balance l (sampleCommand fee nonce samplePk) ↔
      total sampleConstants (l ++ [sampleCommand fee nonce samplePk]) ≤ balance.val :=
  ⟨fun h => ht ▸ h.fits, fun h => ⟨checkExpiry_sample t ht fee nonce, rfl, rfl, ht ▸ h⟩⟩

/-- One command is queued, and one that pays `replaceFee` more replaces it. -/
theorem sample_replaces : ∃ t', addFromGossipExn 2 (fun _ => 0) (fun _ => true)
    (samplePool (sampleCommand 1 0 samplePk) 1) (.checked (sampleCommand 5000000001 0 samplePk)) 0 5000000001 =
      .ok (.ok (sampleCommand 5000000001 0 samplePk, t', [sampleCommand 1 0 samplePk])) := by
  have hwf := samplePool_wf (currencyConsumed_sample 1 0 samplePk sampleConstants)
  have hq : (samplePool (sampleCommand 1 0 samplePk) 1).queues (sampleCommand 5000000001 0 samplePk).feePayer =
      [sampleCommand 1 0 samplePk] := by
    rw [samplePool_queues]
    exact if_pos rfl
  refine addFromGossipExn_replaces 0 _ _ _ [] [] [] 0 (x := .checked (sampleCommand 5000000001 0 samplePk)) hwf rfl hq rfl ?_ ?_ (checkExpiry_sample _ rfl _ _) ?_ ((admits_sample rfl).2 ?_) ?_ ?_
  · rw [Incoming.command_checked, hq]
    intro first hfirst
    rw [List.head?_cons, Option.mem_some_iff] at hfirst
    rw [← hfirst]
    rfl
  · intro hlast
    rw [GoesLast, Incoming.command_checked, hq] at hlast
    exact absurd (hlast _ rfl) (by decide)
  · exact Option.isSome_iff_exists.2 ⟨_, currencyConsumed_sample _ _ _ _⟩
  · rw [List.nil_append, total_sample]
    decide
  · decide
  · exact ⟨by simp, by simp⟩

/-- The commands are accounted for: nothing was queued after the replaced one. -/
theorem accounts_iff_replaced : ∃ t', Accounted (samplePool (sampleCommand 1 0 samplePk) 1) t'
    (sampleCommand 5000000001 0 samplePk) [sampleCommand 1 0 samplePk] := by
  obtain ⟨t', hr⟩ := sample_replaces
  have hwf := samplePool_wf (currencyConsumed_sample 1 0 samplePk sampleConstants)
  have hq : (samplePool (sampleCommand 1 0 samplePk) 1).queues (sampleCommand 5000000001 0 samplePk).feePayer =
      [sampleCommand 1 0 samplePk] := by
    rw [samplePool_queues]
    exact if_pos rfl
  refine ⟨t', (accounts_iff hwf hr).2.2 ⟨?_, .inr ?_⟩⟩
  · rw [hq, List.mem_singleton]
    exact fun he => absurd (congrArg (·.fee) he) (by decide)
  · intro pre old l y l' hl
    have hlen := congrArg List.length (hq.symm.trans hl)
    simp only [List.length_append, List.length_cons, List.length_nil] at hlen
    omega

/-- The pool that holds two commands of one sender. -/
def sampleTwo : IndexedPool encodeHash :=
  { addAllByFeeAndHashAndExpiration (samplePool (sampleCommand 1 0 samplePk) 1) (sampleCommand 1 1 samplePk) with
    allBySender := (samplePool (sampleCommand 1 0 samplePk) 1).allBySender.insert ⟨samplePk, TokenId.default⟩
      ((FSeq.singleton (sampleCommand 1 0 samplePk)).snoc (sampleCommand 1 1 samplePk), 2) }

theorem sampleTwo_wf : Wf sampleTwo :=
  (samplePool_wf (currencyConsumed_sample 1 0 samplePk sampleConstants)).addLast
    (samplePool_stored (sampleCommand 1 0 samplePk) 1)
    (show (FSeq.singleton (sampleCommand 1 0 samplePk)).toList.getLast? = some (sampleCommand 1 0 samplePk) by simp)
    (by decide) (currencyConsumed_sample 1 1 samplePk _) (by decide)

theorem sampleTwo_queues : sampleTwo.queues ⟨samplePk, TokenId.default⟩ =
    [sampleCommand 1 0 samplePk, sampleCommand 1 1 samplePk] := by
  simp [sampleTwo, queues]

/-- **A command is lost.** Two commands with fee 1 are queued, and one that
pays `replaceFee` + 2 replaces the first, with a balance that does not cover
the second any more: the second is in neither the pool nor what is dropped. -/
theorem accounts_lost : ∃ t' d, Wf sampleTwo ∧ addFromGossipExn 2 (fun _ => 0) (fun _ => true) sampleTwo
      (.checked (sampleCommand 5000000002 0 samplePk)) 0 5000000002 =
        .ok (.ok (sampleCommand 5000000002 0 samplePk, t', d)) ∧
      ¬ Accounted sampleTwo t' (sampleCommand 5000000002 0 samplePk) d := by
  have hq : sampleTwo.queues (sampleCommand 5000000002 0 samplePk).feePayer =
      [sampleCommand 1 0 samplePk, sampleCommand 1 1 samplePk] := sampleTwo_queues
  have hrefused : ¬ Admits sampleTwo 0 5000000002 [sampleCommand 5000000002 0 samplePk]
      (sampleCommand 1 1 samplePk) := by
    rw [admits_sample rfl, List.cons_append, total_sample, List.nil_append, total_sample]
    decide
  have hlast : ¬ GoesLast sampleTwo (sampleCommand 5000000002 0 samplePk) := by
    intro hlast
    rw [GoesLast, hq] at hlast
    exact absurd (hlast _ rfl) (by decide)
  obtain ⟨t', hr⟩ := addFromGossipExn_replaces 0 (fun _ => 0) (fun _ => true) 5000000002 [] []
    [sampleCommand 1 1 samplePk] 0 (x := .checked (sampleCommand 5000000002 0 samplePk)) sampleTwo_wf rfl hq rfl
    (by
      rw [Incoming.command_checked, hq]
      intro first hfirst
      rw [List.head?_cons, Option.mem_some_iff] at hfirst
      rw [← hfirst]
      rfl)
    hlast (checkExpiry_sample _ rfl _ _)
    (Option.isSome_iff_exists.2 ⟨_, currencyConsumed_sample _ _ _ _⟩)
    ((admits_sample rfl).2 (by rw [List.nil_append, total_sample]; decide)) (by decide)
    ⟨by simp, fun x hx => by
      rw [List.head?_cons, Option.mem_some_iff] at hx
      rw [← hx]
      exact hrefused⟩
  refine ⟨t', _, sampleTwo_wf, hr, fun hacc => ?_⟩
  rcases (addFromGossipExn_run sampleTwo_wf hr).2 with ⟨hgoes, -, -⟩ | ⟨-, pre, old, kept, rest, hrun⟩
  · exact hlast hgoes
  · have hall := (hrun.readdsAll_iff sampleTwo_wf).2 ((hrun.accounted_iff sampleTwo_wf).1 hacc)
    exact hrefused (hall [] _ [] _ [] hq rfl)

/-! ## The fees -/

theorem fees_le_of_subset {l l' : List (Command H)} (hl : l.Nodup) (h : ∀ y ∈ l, y ∈ l') : fees l ≤ fees l' := by
  obtain ⟨m, hm, hsub⟩ := hl.subperm h
  rw [fees, fees, ← (hm.map _).sum_eq]
  exact (hsub.map _).sum_le_sum fun _ _ => Nat.zero_le _

/-- **Replacement pays and keeps the sender solvent.** A command that
replaces another pays `replaceFee` more than all of its sender's commands
that are no longer in the pool, and after any addition the sender's
reserved currency is at most the balance. -/
theorem pays_and_solvent {fuel : Nat} {clock : List Nat → GlobalSlot} {verify : Command H → Bool}
    {t t' : IndexedPool H} {x : Incoming H} {n : AccountNonce} {balance : Amount} {c : Command H}
    {d : List (Command H)} (h : Wf t)
    (hr : addFromGossipExn fuel clock verify t x n balance = .ok (.ok (c, t', d))) :
    (¬ GoesLast t x.command → ∀ gone : List (Command H), gone.Nodup →
        (∀ y ∈ gone, y ∈ t.queues x.command.feePayer ∧ ¬ InQueues t'.queues y) →
          replaceFee.val + fees gone ≤ x.command.fee.val) ∧
      Solvent t' x.command.feePayer balance := by
  rcases (addFromGossipExn_run h hr).2 with ⟨hlast, -, happ⟩ | ⟨hlast, pre, old, kept, rest, hrun⟩
  · exact ⟨fun hn => absurd hlast hn, happ.solvent⟩
  refine ⟨fun _ gone hnodup hgone => ?_, hrun.solvent⟩
  refine le_trans (Nat.add_le_add_left (fees_le_of_subset hnodup fun y hy => ?_) _) hrun.fees
  obtain ⟨hin, hout⟩ := hgone y hy
  have hy := h.sender _ y hin
  rw [hrun.queues, mem_update, if_pos hy] at hout
  rw [hrun.queue] at hin
  simp only [List.mem_append, List.mem_cons] at hin hout ⊢
  tauto

/-- The replacement of the only command of the pool. -/
theorem pays_and_solvent_replaced : ∃ t',
    (¬ GoesLast (samplePool (sampleCommand 1 0 samplePk) 1) (sampleCommand 5000000001 0 samplePk) →
        ∀ gone : List (Command encodeHash), gone.Nodup →
          (∀ y ∈ gone, y ∈ (samplePool (sampleCommand 1 0 samplePk) 1).queues ⟨samplePk, TokenId.default⟩ ∧
            ¬ InQueues t'.queues y) → replaceFee.val + fees gone ≤ 5000000001) ∧
      Solvent t' ⟨samplePk, TokenId.default⟩ 5000000001 := by
  obtain ⟨t', hr⟩ := sample_replaces
  exact ⟨t', pays_and_solvent (samplePool_wf (currencyConsumed_sample 1 0 samplePk sampleConstants)) hr⟩

end Mina.IndexedPool
