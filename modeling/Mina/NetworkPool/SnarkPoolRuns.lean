/-
The snark pool over any run (`snark_pool_improves`): its entries are valid,
and a work's entry is only replaced by a cheaper one.

A verified diff stays right whatever happens to the pool, since it is about
the diff alone (`CallRight`); that it is cheaper is looked at again when it is
applied.
-/
import Mina.NetworkPool.SnarkPool

namespace Mina.SnarkPool

open Relation

variable {K P S : Type} {setting : Setting K P S} {valid : P → S → FeeWithProver K → Prop}

theorem zip_ok {α β : Type} {x : OneOrTwo α} {y : OneOrTwo β} {pairs : OneOrTwo (α × β)}
    (h : x.zip y = .ok pairs) : x.toList = pairs.toList.map (·.1) ∧ y.toList = pairs.toList.map (·.2) := by
  cases x with
  | one a =>
    cases y with
    | one b =>
      cases h
      exact ⟨rfl, rfl⟩
    | two b b' => cases h
  | two a a' =>
    cases y with
    | one b => cases h
    | two b b' =>
      cases h
      exact ⟨rfl, rfl⟩

/-! ## The tables -/

theorem Sound.create : Sound setting valid (SnarkTables.create : SnarkTables K P S) where
  proves _ _ h := by cases h
  rebroadcastable _ _ _ h := by cases h

theorem Improves.refl (t : SnarkTables K P S) : Improves t t := by
  intro work p p' h h'
  rw [h] at h'
  cases h'
  exact .inl rfl

theorem Improves.of_sub {t t' : SnarkTables K P S} (h : ∀ work p, t'.all work = some p → t.all work = some p) :
    Improves t t' := by
  intro work p p' hp hp'
  rw [h work p' hp'] at hp
  cases hp
  exact .inl rfl

section

variable {t : SnarkTables K P S} {work : OneOrTwo S} {p : PricedProof K P} {x : PricedProof K P × Nat}
  {keep : OneOrTwo S → PricedProof K P → Bool}

theorem filter_all : (t.filter keep).all work = some p ↔ t.all work = some p ∧ keep work p = true :=
  Option.filter_eq_some_iff

theorem filter_rebroadcastable : (t.filter keep).rebroadcastable work = some x ↔
    t.rebroadcastable work = some x ∧ ∀ p, t.all work = some p → keep work p = true := by
  show (if (t.all work).any (fun p => !keep work p) then none else t.rebroadcastable work) = some x ↔ _
  cases t.all work <;> simp [and_comm]

theorem Sound.filter (ht : Sound setting valid t) (keep : OneOrTwo S → PricedProof K P → Bool) : Sound setting valid (t.filter keep) where
  proves work p h := ht.proves work p (filter_all.1 h).1
  rebroadcastable work p time h := by
    obtain ⟨h, hkeep⟩ := filter_rebroadcastable.1 h
    have hall := ht.rebroadcastable work p time h
    exact filter_all.2 ⟨hall, hkeep p hall⟩

end

theorem hasLowerFee_ok {pool : T K P S} {work : OneOrTwo S} {fee : Fee} (h : hasLowerFee pool work fee = .ok ()) :
    ∀ p, pool.snarkTables.all work = some p → fee < p.fee.fee := by
  intro p hp
  rw [hasLowerFee, requestProof, hp] at h
  dsimp only at h
  split at h
  next hlt => exact hlt
  next =>
    split at h
    next => cases h
    next => cases h

/-! ## Calls -/

/-- The proofs of a diff are for the statements of its work. -/
def Matches (setting : Setting K P S) (env : Envelope K P S) : Prop :=
  ∀ work p, env.data = .addSolvedWork work p → p.proof.toList.map setting.statement = work.toList

/-- What is known of a diff where its call stands. -/
def PhaseRight (setting : Setting K P S) (valid : P → S → FeeWithProver K → Prop) (env : Envelope K P S) :
    Phase → Prop
  | .statementCheck ok => ok = true → Matches setting env
  | .inBatcher => Matches setting env
  | .verified res => res = .ok () → ∀ work p, env.data = .addSolvedWork work p → Proves setting valid work p
  | .applied => True

section

variable {env : Envelope K P S}

theorem failed_right : PhaseRight setting valid env failed := by
  intro h
  cases h

theorem verifyAndAct_right [DecidableEq S] {work : OneOrTwo S} {p : PricedProof K P} (hdata : env.data = .addSolvedWork work p) :
    PhaseRight setting valid env (verifyAndAct setting work p) := by
  rw [verifyAndAct]
  cases hzip : p.proof.zip work with
  | error e => exact failed_right
  | ok pairs =>
    intro hcheck work' p' hdata'
    rw [hdata] at hdata'
    cases hdata'
    obtain ⟨hproofs, hwork⟩ := zip_ok hzip
    rw [hproofs, hwork, List.map_map]
    refine List.map_congr_left fun pair hpair => ?_
    exact of_decide_eq_true (List.all_eq_true.1 hcheck pair hpair)

theorem verify_right [DecidableEq S] (pool : T K P S) : PhaseRight setting valid env (verify setting pool env) := by
  rw [verify]
  cases hdata : env.data with
  | empty =>
    intro h
    cases h
  | addSolvedWork work p =>
    dsimp only
    split
    next => exact verifyAndAct_right hdata
    next =>
      cases hasLowerFee pool work p.fee.fee with
      | ok u => exact verifyAndAct_right hdata
      | error e =>
        intro h
        cases h

theorem afterStatementCheck_right {pool : T K P S} {bestTipLedger : Option (BaseLedger K)} {ok : Bool}
    (h : PhaseRight setting valid env (.statementCheck ok)) :
    PhaseRight setting valid env (afterStatementCheck setting pool bestTipLedger env ok) := by
  rw [afterStatementCheck]
  cases hdata : env.data with
  | empty => exact failed_right
  | addSolvedWork work p =>
    dsimp only
    split
    next => exact failed_right
    next =>
      split
      next => exact failed_right
      next =>
        split
        next => exact failed_right
        next hok =>
          split
          next => exact failed_right
          next =>
            rw [Bool.not_eq_true, Bool.not_eq_false'] at hok
            exact h hok

theorem afterBatcher_right {answer : Except String Bool} (h : Matches setting env)
    (hvalid : answer = .ok true → ∀ work p, env.data = .addSolvedWork work p →
      ∀ q ∈ p.proof.toList, valid q (setting.statement q) p.fee) :
    PhaseRight setting valid env (afterBatcher answer) := by
  match answer with
  | .error e => exact failed_right
  | .ok false => exact failed_right
  | .ok true =>
    intro _ work p hdata
    rw [Proves, ← h work p hdata, List.forall₂_map_right_iff, List.forall₂_same]
    exact fun q hq => ⟨rfl, hvalid rfl work p hdata q hq⟩

end

/-! ## The invariant -/

structure Inv (setting : Setting K P S) (valid : P → S → FeeWithProver K → Prop) (t : State K P S) : Prop where
  sound : Sound setting valid t.pool.snarkTables
  calls : ∀ c ∈ t.calls, PhaseRight setting valid c.env c.phase

theorem init_inv (accountCreationFee : Fee) : Inv setting valid (init accountCreationFee : State K P S) where
  sound := Sound.create
  calls _ h := by cases h

theorem advance_eq_some {t t' : State K P S} {i : Nat} {next : Call K P S → Option Phase} (h : advance t i next = some t') :
    ∃ c phase, t.calls[i]? = some c ∧ next c = some phase ∧ t' = { t with calls := t.calls.set i { c with phase } } := by
  obtain ⟨c, hc, h⟩ := Option.bind_eq_some_iff.1 h
  obtain ⟨phase, hphase, h⟩ := Option.map_eq_some_iff.1 h
  exact ⟨c, phase, hc, hphase, h.symm⟩

theorem calls_set {l : List (Call K P S)} (h : ∀ c ∈ l, PhaseRight setting valid c.env c.phase) {i : Nat}
    {c : Call K P S} (hc : PhaseRight setting valid c.env c.phase) :
    ∀ c' ∈ l.set i c, PhaseRight setting valid c'.env c'.phase := by
  intro c' hc'
  rcases List.mem_or_eq_of_mem_set hc' with hmem | rfl
  · exact h c' hmem
  · exact hc

/-! ## Removing and adding -/

variable [DecidableEq S]

theorem update_eq_some {A : Type} {f : OneOrTwo S → Option A} {work work' : OneOrTwo S} {v : Option A} {a : A} :
    Function.update f work v work' = some a ↔ work' = work ∧ v = some a ∨ work' ≠ work ∧ f work' = some a := by
  by_cases heq : work' = work
  · rw [heq, Function.update_self]
    simp
  · rw [Function.update_of_ne heq]
    simp [heq]

section

variable {t : SnarkTables K P S} {work work' : OneOrTwo S} {p : PricedProof K P} {x : PricedProof K P × Nat}

theorem remove_all : (t.remove work).all work' = some p ↔ work' ≠ work ∧ t.all work' = some p := by
  show Function.update t.all work none work' = some p ↔ _
  simp [update_eq_some]

theorem remove_rebroadcastable :
    (t.remove work).rebroadcastable work' = some x ↔ work' ≠ work ∧ t.rebroadcastable work' = some x := by
  show Function.update t.rebroadcastable work none work' = some x ↔ _
  simp [update_eq_some]

theorem Sound.remove (ht : Sound setting valid t) (work : OneOrTwo S) : Sound setting valid (t.remove work) where
  proves work' p h := ht.proves work' p (remove_all.1 h).2
  rebroadcastable work' p time h := by
    obtain ⟨hne, h⟩ := remove_rebroadcastable.1 h
    exact remove_all.2 ⟨hne, ht.rebroadcastable work' p time h⟩

end

/-- What `unsafe_apply` does to the tables. -/
inductive Applied (pool : T K P S) (env : Envelope K P S) (now : Nat) : T K P S → Prop
  | same : Applied pool env now pool
  | set {work : OneOrTwo S} {p : PricedProof K P} (hdata : env.data = .addSolvedWork work p)
      (hlower : ∀ prev, pool.snarkTables.all work = some prev → p.fee.fee < prev.fee.fee)
      (hreferenced : workIsReferenced pool work = true) :
      Applied pool env now { pool with snarkTables := {
        all := Function.update pool.snarkTables.all work (some p)
        rebroadcastable := Function.update pool.snarkTables.rebroadcastable work
          (if env.isLocal then some (p, now) else none) } }

theorem unsafeApply_applied (pool : T K P S) (env : Envelope K P S) (now : Nat) :
    Applied pool env now (unsafeApply pool env now).1 := by
  rw [unsafeApply]
  cases hdata : env.data with
  | empty => exact .same
  | addSolvedWork work p =>
    dsimp only
    cases hfee : hasLowerFee pool work p.fee.fee with
    | error e => exact .same
    | ok u =>
      dsimp only
      by_cases hreferenced : workIsReferenced pool work = true
      · rw [addSnark, if_pos hreferenced]
        dsimp only
        have hset : Applied pool env now _ := .set hdata (hasLowerFee_ok hfee) hreferenced
        rwa [apply_ite (Function.update pool.snarkTables.rebroadcastable work)] at hset
      · rw [addSnark, if_neg hreferenced]
        exact .same

theorem Applied.improves {pool pool' : T K P S} {env : Envelope K P S} {now : Nat} (h : Applied pool env now pool') :
    Improves pool.snarkTables pool'.snarkTables := by
  cases h with
  | same => exact .refl _
  | @set work p hdata hlower hreferenced =>
    intro work' q q' hq hq'
    rcases update_eq_some.1 hq' with ⟨rfl, hp⟩ | ⟨hne, hq'⟩
    · cases hp
      exact .inr (hlower q hq)
    · rw [hq] at hq'
      cases hq'
      exact .inl rfl

theorem Applied.sound {pool pool' : T K P S} {env : Envelope K P S} {now : Nat} (h : Applied pool env now pool')
    (hsound : Sound setting valid pool.snarkTables)
    (hproves : ∀ work p, env.data = .addSolvedWork work p → Proves setting valid work p) :
    Sound setting valid pool'.snarkTables := by
  cases h with
  | same => exact hsound
  | @set work p hdata hlower hreferenced =>
    refine ⟨fun work' q hq => ?_, fun work' q time hq => ?_⟩
    · rcases update_eq_some.1 hq with ⟨rfl, hp⟩ | ⟨-, hq⟩
      · cases hp
        exact hproves work' p hdata
      · exact hsound.proves work' q hq
    · refine update_eq_some.2 ?_
      rcases update_eq_some.1 hq with ⟨heq, hp⟩ | ⟨hne, hq⟩
      · split at hp
        next =>
          cases hp
          exact .inl ⟨heq, rfl⟩
        next => cases hp
      · exact .inr ⟨hne, hsound.rebroadcastable work' q time hq⟩

/-! ## Steps -/

/-- What a step does to the tables. -/
structure Kept (setting : Setting K P S) (valid : P → S → FeeWithProver K → Prop) (event : Event K P S)
    (t t' : State K P S) : Prop where
  sound : Sound setting valid t'.pool.snarkTables
  improves : Improves t.pool.snarkTables t'.pool.snarkTables
  referenced : Prunes t.pool event → ∀ work p, t'.pool.snarkTables.all work = some p →
    workIsReferenced t'.pool work = true

variable {t t' : State K P S}

theorem Inv.step (hinv : Inv setting valid t) {event : Event K P S} (hcond : Condition setting valid t event)
    (h : step setting t event = some t') : Inv setting valid t' ∧ Kept setting valid event t t' := by
  cases event with
  | verify env =>
    cases h
    refine ⟨⟨hinv.sound, fun c hc => ?_⟩, hinv.sound, .refl _, False.elim⟩
    rcases List.mem_append.1 hc with hc | hc
    · exact hinv.calls c hc
    · rw [List.mem_singleton.1 hc]
      exact verify_right t.pool
  | statementsChecked i bestTipLedger =>
    obtain ⟨c, phase, hi, hphase, rfl⟩ := advance_eq_some h
    have hright := hinv.calls c (List.mem_of_getElem? hi)
    split at hphase
    next ok hc =>
      cases hphase
      rw [hc] at hright
      exact ⟨⟨hinv.sound, calls_set hinv.calls (afterStatementCheck_right hright)⟩, hinv.sound, .refl _, False.elim⟩
    next => cases hphase
  | batcherAnswered i answer =>
    obtain ⟨c, phase, hi, hphase, rfl⟩ := advance_eq_some h
    have hright := hinv.calls c (List.mem_of_getElem? hi)
    split at hphase
    next hc =>
      cases hphase
      rw [hc] at hright
      have hvalid := afterBatcher_right hright fun htrue => hcond htrue c hi
      exact ⟨⟨hinv.sound, calls_set hinv.calls hvalid⟩, hinv.sound, .refl _, False.elim⟩
    next => cases hphase
  | unsafeApply i now =>
    obtain ⟨c, hi, h⟩ := Option.bind_eq_some_iff.1 h
    have hright := hinv.calls c (List.mem_of_getElem? hi)
    split at h
    next hc =>
      cases h
      rw [hc] at hright
      have happlied := unsafeApply_applied t.pool c.env now
      have hsound := happlied.sound hinv.sound (hright rfl)
      exact ⟨⟨hsound, calls_set hinv.calls trivial⟩, hsound, happlied.improves, False.elim⟩
    next => cases h
  | newRefcountTable view =>
    cases h
    have hkept : Kept setting valid (.newRefcountTable view) t { t with pool := handleNewRefcountTable t.pool view } := by
      rw [handleNewRefcountTable]
      split
      next =>
        refine ⟨hinv.sound.filter _, .of_sub fun work p hp => (filter_all.1 hp).1, fun _ work p hp => ?_⟩
        exact (filter_all.1 hp).2
      next hfew => exact ⟨hinv.sound, .refl _, fun hprunes => absurd hprunes hfew⟩
    exact ⟨⟨hkept.sound, hinv.calls⟩, hkept⟩
  | newBestTip ledger =>
    cases h
    have hkept : Kept setting valid (.newBestTip ledger) t { t with pool := handleNewBestTipLedger t.pool ledger } := by
      rw [handleNewBestTipLedger]
      split
      next => exact ⟨hinv.sound, .refl _, False.elim⟩
      next => exact ⟨hinv.sound.filter _, .of_sub fun work p hp => (filter_all.1 hp).1, False.elim⟩
    exact ⟨⟨hkept.sound, hinv.calls⟩, hkept⟩
  | removeSolvedWork work =>
    cases h
    have hsound := hinv.sound.remove work
    exact ⟨⟨hsound, hinv.calls⟩, hsound, .of_sub fun work' p hp => (remove_all.1 hp).2, False.elim⟩
  | frontier opened =>
    cases h
    have hsame : (listenToFrontier t.pool opened).snarkTables = t.pool.snarkTables := by cases opened <;> rfl
    refine ⟨⟨hsame ▸ hinv.sound, hinv.calls⟩, hsame ▸ hinv.sound, ?_, False.elim⟩
    show Improves t.pool.snarkTables (listenToFrontier t.pool opened).snarkTables
    rw [hsame]
    exact .refl _

/-! ## Runs -/

theorem reached_inv {accountCreationFee : Fee}
    (hrun : ReflTransGen (Step setting valid) (init accountCreationFee) t) : Inv setting valid t := by
  induction hrun with
  | refl => exact init_inv accountCreationFee
  | tail _ hstep ih =>
    obtain ⟨event, hcond, hstep⟩ := hstep
    exact (ih.step hcond hstep).1

/-- A run that leaves a work in the table. -/
def Stays (setting : Setting K P S) (valid : P → S → FeeWithProver K → Prop) (work : OneOrTwo S) (t t' : State K P S) :
    Prop :=
  ReflTransGen (fun t t' => Step setting valid t t' ∧ (t'.pool.snarkTables.all work).isSome = true) t t'

theorem Inv.stays (hinv : Inv setting valid t) {work : OneOrTwo S} {p : PricedProof K P}
    (hp : t.pool.snarkTables.all work = some p) (hrun : Stays setting valid work t t') :
    Inv setting valid t' ∧ ∃ q, t'.pool.snarkTables.all work = some q ∧ q.fee.fee ≤ p.fee.fee := by
  induction hrun with
  | refl => exact ⟨hinv, p, hp, le_refl _⟩
  | tail _ hstep ih =>
    obtain ⟨⟨event, hcond, hstep⟩, hsome⟩ := hstep
    obtain ⟨hinv', q, hq, hle⟩ := ih
    obtain ⟨hinv'', hkept⟩ := hinv'.step hcond hstep
    obtain ⟨r, hr⟩ := Option.isSome_iff_exists.1 hsome
    refine ⟨hinv'', r, hr, ?_⟩
    rcases hkept.improves work q r hq hr with rfl | hlt
    · exact hle
    · exact hlt.le.trans hle

/-- **The pool only improves.** In any run the entries are valid for their
works and those to rebroadcast are among them; a step replaces an entry by a
cheaper one only, and when it prunes by the counts what is left is referenced;
and while a work stays its fee does not rise. -/
theorem snark_pool_improves {accountCreationFee : Fee}
    (hrun : ReflTransGen (Step setting valid) (init accountCreationFee) t) :
    Sound setting valid t.pool.snarkTables ∧
      (∀ event t', Condition setting valid t event → step setting t event = some t' → Kept setting valid event t t') ∧
      ∀ work t' p p', Stays setting valid work t t' → t.pool.snarkTables.all work = some p →
        t'.pool.snarkTables.all work = some p' → p'.fee.fee ≤ p.fee.fee := by
  have hinv := reached_inv hrun
  refine ⟨hinv.sound, fun event t' hcond hstep => (hinv.step hcond hstep).2, fun work t' p p' hstays hp hp' => ?_⟩
  obtain ⟨-, q, hq, hle⟩ := hinv.stays hp hstays
  rw [hq] at hp'
  cases hp'
  exact hle

/-! ### One work -/

/-- A proof is for a statement and made by a prover. -/
def sampleSetting : Setting Nat (Nat × Nat) Nat where
  statement := Prod.fst
  decompress _ := true

def sampleValid (q : Nat × Nat) (_ : Nat) (message : FeeWithProver Nat) : Prop := q.2 = message.prover

def samplePriced (fee : Fee) : PricedProof Nat (Nat × Nat) := ⟨.one (5, 7), ⟨fee, 7⟩⟩

def sampleView : Frontier.SnarkPoolRefcount.View (OneOrTwo Nat) where
  removed := 0
  refcountTable work := if work = .one 5 then some 1 else none
  bestTipTable := ∅

/-- The proof is verified and applied. -/
theorem snark_pool_improves_one : ∃ t : State Nat (Nat × Nat) Nat,
    ReflTransGen (Step sampleSetting sampleValid) (init 1) t ∧
      t.pool.snarkTables.all (.one 5) = some (samplePriced 3) ∧
      Sound sampleSetting sampleValid t.pool.snarkTables := by
  have h₁ : ReflTransGen (Step sampleSetting sampleValid) (init 1) _ :=
    .single ⟨.newRefcountTable sampleView, trivial, rfl⟩
  have h₂ : ReflTransGen (Step sampleSetting sampleValid) (init 1) _ :=
    h₁.tail ⟨.verify ⟨.addSolvedWork (.one 5) (samplePriced 3), false⟩, trivial, rfl⟩
  have h₃ : ReflTransGen (Step sampleSetting sampleValid) (init 1) _ :=
    h₂.tail ⟨.statementsChecked 0 none, trivial, rfl⟩
  have h₄ : ReflTransGen (Step sampleSetting sampleValid) (init 1) _ :=
    h₃.tail ⟨.batcherAnswered 0 (.ok true), fun _ c hc work p hdata q hq => by
      cases hc
      cases hdata
      rw [List.mem_singleton.1 hq]
      rfl, rfl⟩
  have h₅ : ReflTransGen (Step sampleSetting sampleValid) (init 1) _ :=
    h₄.tail ⟨.unsafeApply 0 0, trivial, rfl⟩
  exact ⟨_, h₅, rfl, (snark_pool_improves h₅).1⟩

end Mina.SnarkPool
