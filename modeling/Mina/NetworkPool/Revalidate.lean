/-
`revalidate`: when it keeps exactly the still-valid commands.

The source folds over the senders with a pool as accumulator, but the branch
for a sender whose nonce went back removes from the pool `revalidate` was
called with, so what earlier senders lost comes back; and the other branch
neither promotes a new head into the applicable commands nor deletes a
sender whose queue ran empty, and takes the first dropped command for the
head of the queue. `GoodSender` is what is left: the senders on which none
of this shows. `revalidate_iff` says that the function meets its purpose
(`Revalidated`) exactly when every sender is good.

The proof follows the fold. As long as the senders handled are good the
accumulator is right (`Progress`); at the first one that is not, the call
raises or leaves some sender `Broken`, and broken it stays.
-/
import Mina.NetworkPool.IndexedPoolInvariant

namespace Mina.IndexedPool

open Std (ExtTreeMap)
open FSequence (FSeq)

variable {H : TransactionHash}

/-! ## What `revalidate` is for -/

/-- The currency consumed by a list of commands. -/
def total (K : PoolConstants) (l : List (Command H)) : Nat := (l.map (consumedVal K)).sum

/-- `p` is the longest prefix of `l` whose total fits the balance. -/
structure LongestFit (K : PoolConstants) (balance : Amount) (l p : List (Command H)) : Prop where
  isPrefix : p <+: l
  fits : total K p ≤ balance.val
  longest : ∀ p', p' <+: l → total K p' ≤ balance.val → p'.length ≤ p.length

section

variable (t : IndexedPool H) (f : AccountId → AccountNonce × Amount)

/-- The sender's current nonce is below its first queued nonce. -/
def Stale (s : AccountId) : Prop := ∃ c ∈ (t.queues s).head?, (f s).1 < c.nonce

/-- Nothing of the sender's has to go. -/
def Untouched (s : AccountId) : Prop :=
  ∀ c ∈ (t.queues s).head?, (f s).1 = c.nonce ∧ total t.constants (t.queues s) ≤ (f s).2.val

/-- `l` is what should be left of the sender's queue. -/
def Kept (s : AccountId) (l : List (Command H)) : Prop :=
  (Stale t f s → l = []) ∧
    (¬ Stale t f s → LongestFit t.constants (f s).2 ((t.queues s).filter fun c => (f s).1 ≤ c.nonce) l)

/-- What `revalidate` should answer: a well-formed pool with what should be
left of every queue, and the commands that are gone, each once. -/
structure Revalidated (t' : IndexedPool H) (dropped : List (Command H)) : Prop where
  wf : Wf t'
  kept : ∀ s, Kept t f s (t'.queues s)
  nodup : dropped.Nodup
  dropped : ∀ c, c ∈ dropped ↔ InQueues t.queues c ∧ ¬ InQueues t'.queues c

/-- The senders that `revalidate` treats as it should: one whose nonce went
back, when no earlier sender loses anything; any other, when its nonce is
that of its first command, and either nothing is over the balance, or the
first command fits and the fee of the last one is also that of the head of a
sender that was not removed before. -/
def GoodSender (s : AccountId) : Prop :=
  (Stale t f s → ∀ s' < s, Untouched t f s') ∧
    (¬ Stale t f s → ∀ first ∈ (t.queues s).head?, (f s).1 = first.nonce ∧
      (total t.constants (t.queues s) ≤ (f s).2.val ∨
        consumedVal t.constants first ≤ (f s).2.val ∧
          ∃ s' head last, (t.queues s').head? = some head ∧ (t.queues s).getLast? = some last ∧
            head.fee = last.fee ∧ ¬(s' < s ∧ Stale t f s')))

end

/-! ## Longest fitting prefixes -/

theorem total_append (K : PoolConstants) (l l' : List (Command H)) : total K (l ++ l') = total K l + total K l' := by
  simp [total]

theorem total_mono {K : PoolConstants} {p l : List (Command H)} (h : p <+: l) : total K p ≤ total K l := by
  obtain ⟨q, rfl⟩ := h
  rw [total_append]
  exact Nat.le_add_right _ _

theorem LongestFit.of_le {K : PoolConstants} {balance : Amount} {l : List (Command H)}
    (h : total K l ≤ balance.val) : LongestFit K balance l l :=
  ⟨List.prefix_rfl, h, fun _ hp _ => hp.length_le⟩

/-- A fitting prefix that does not fit with the next command is the longest. -/
theorem LongestFit.of_next {K : PoolConstants} {balance : Amount} {p rest : List (Command H)} {c : Command H}
    (h : total K p ≤ balance.val) (hc : balance.val < total K (p ++ [c])) :
    LongestFit K balance (p ++ c :: rest) p := by
  refine ⟨List.prefix_append _ _, h, fun p' hp' hfit => ?_⟩
  by_contra hlen
  have hpre : p ++ [c] <+: p' := by
    have : p ++ [c] <+: p ++ c :: rest := ⟨rest, by simp⟩
    exact List.prefix_of_prefix_length_le this hp' (by simp; omega)
  exact absurd (total_mono (K := K) hpre) (by omega)

theorem mem_filter_nonce {l : List (Command H)} {n : AccountNonce} (h : ∀ c ∈ l.head?, n = c.nonce)
    (hd : Dense l) : l.filter (fun c => n ≤ c.nonce) = l := by
  rw [List.filter_eq_self]
  intro c hc
  cases l with
  | nil => simp at hc
  | cons first l =>
    have hfirst := h first rfl
    rcases List.mem_cons.1 hc with rfl | hc
    · simp [hfirst]
    · have := (List.pairwise_cons.1 hd.nonce_lt).1 c hc
      rw [hfirst, decide_eq_true_eq, Fin.le_def]
      omega

/-- A sender that should lose something does not keep its queue. -/
theorem not_kept_of_touched {t : IndexedPool H} {f : AccountId → AccountNonce × Amount} {s : AccountId}
    (ht : ¬ Untouched t f s) : ¬ Kept t f s (t.queues s) := by
  intro hk
  simp only [Untouched, not_forall] at ht
  obtain ⟨first, hfirst, ht⟩ := ht
  have hne : t.queues s ≠ [] := by intro hnil; simp [hnil] at hfirst
  by_cases hs : Stale t f s
  · exact hne (hk.1 hs)
  have hfit := hk.2 hs
  have hall : ∀ c ∈ t.queues s, (f s).1 ≤ c.nonce := fun c hc =>
    of_decide_eq_true (List.mem_filter.1 (hfit.isPrefix.subset hc)).2
  have hle := hall first (List.mem_of_mem_head? hfirst)
  have hge : first.nonce ≤ (f s).1 := not_lt.1 fun hlt => hs ⟨first, hfirst, hlt⟩
  exact ht ⟨le_antisymm hle hge, hfit.fits⟩

/-! ## One sender -/

section Step

variable {t : IndexedPool H} {f : AccountId → AccountNonce × Amount} {s : AccountId} {q : FSeq (Command H)}
  {r : Amount} {first : Command H}

/-- The branch that drops a sender whose nonce went back works on the pool
`revalidate` was called with, whatever the accumulator holds. -/
theorem revalidateSender_stale (h : Wf t) (hs : t.allBySender[s]? = some (q, r))
    (hfirst : q.toList.head? = some first) (hn : (f s).1 < first.nonce)
    (acc : IndexedPool H × List (Command H)) :
    ∃ t'', revalidateSender t f acc (s, q, r) = .ok (t'', acc.2 ++ q.toList) ∧ Wf t'' ∧
      t''.queues = Function.update t.queues s [] ∧ t''.constants = t.constants := by
  obtain ⟨post, hpost⟩ : ∃ post, q.toList = first :: post := by
    cases hl : q.toList with
    | nil => simp [hl] at hfirst
    | cons c post => exact ⟨post, by simp [hl] at hfirst; rw [hfirst]⟩
  have hq : t.queues s = [] ++ first :: post := by rw [queues_of_some hs, hpost]; rfl
  obtain ⟨t'', ht, hwf, hqueues, hconst⟩ := removeWithDependentsExn_ok h hq
  refine ⟨t'', ?_, hwf, hqueues, hconst⟩
  rw [revalidateSender]
  simp only [FSeq.headExn_eq_ok.2 hfirst, Exn.andThen_ok, hn, if_true, ht, hpost]

/-- What the other branch computes before it touches the pool: the part of
the queue that stays, and the commands that go. -/
theorem revalidateSender_trim (hres : Reserved t.constants q.toList r)
    (hfirst : q.toList.head? = some first) (hn : first.nonce ≤ (f s).1)
    (acc : IndexedPool H × List (Command H)) :
    ∃ q' r' d, q.toList.drop ((f s).1.val - first.nonce.val) = q'.toList ++ d.reverse ∧
      Reserved t.constants q'.toList r' ∧ r' ≤ (f s).2 ∧
      (∀ c ∈ d.getLast?, (f s).2.val < total t.constants (q'.toList ++ [c])) ∧
      revalidateSender t f acc (s, q, r) =
        match q.toList.take ((f s).1.val - first.nonce.val) ++ d with
        | [] => .ok acc
        | head :: tail =>
          (removeApplicableExn acc.1 head).andThen fun t₁ =>
          (removeAllByFeeAndHashAndExpirationExn t₁ head).andThen fun t₂ =>
          (Exn.fold removeAllByFeeAndHashAndExpirationExn t₂ tail).andThen fun t'' =>
          .ok ({ t'' with allBySender := t''.allBySender.insert s (q', r') }, acc.2 ++ head :: tail) := by
  generalize hk : (f s).1.val - first.nonce.val = k
  rw [← List.take_append_drop k q.toList] at hres
  obtain ⟨r₁, hr₁, hres₁⟩ := fold_subConsumed hres
  rw [← FSeq.splitAt_snd] at hres₁
  obtain ⟨q', r', d, hd, hsplit, hres', hle, hlast⟩ :=
    dropUntilSufficientBalance_spec (f s).2 [] hres₁
  rw [FSeq.splitAt_snd] at hsplit
  refine ⟨q', r', d, hsplit, hres', hle, hlast, ?_⟩
  rw [List.nil_append] at hd
  rw [revalidateSender]
  cases hlist : q.toList.take k ++ d with
  | nil =>
    simp only [FSeq.headExn_eq_ok.2 hfirst, Exn.andThen_ok, if_neg (not_lt.2 hn), hk, FSeq.foldExn_eq,
      FSeq.splitAt_fst, hr₁, hd, hlist]
  | cons head tail =>
    simp only [FSeq.headExn_eq_ok.2 hfirst, Exn.andThen_ok, if_neg (not_lt.2 hn), hk, FSeq.foldExn_eq,
      FSeq.splitAt_fst, hr₁, hd, hlist]

end Step

/-! ## Good senders -/

/-- A sender that should lose nothing keeps its queue. -/
theorem kept_of_untouched {t : IndexedPool H} {f : AccountId → AccountNonce × Amount} {s : AccountId}
    (h : Wf t) (hu : Untouched t f s) : Kept t f s (t.queues s) := by
  refine ⟨fun ⟨c, hc, hlt⟩ => absurd (hu c hc).1 (ne_of_lt hlt), fun _ => ?_⟩
  rw [mem_filter_nonce (fun c hc => (hu c hc).1) (h.dense s)]
  refine .of_le ?_
  cases hq : t.queues s with
  | nil => exact Nat.zero_le _
  | cons first l => exact hq ▸ (hu first (by rw [hq]; rfl)).2

/-- The accumulator of `revalidate` when the senders in `done` were handled,
all of them good. -/
structure Progress (t : IndexedPool H) (f : AccountId → AccountNonce × Amount) (done : AccountId → Prop)
    (acc : IndexedPool H × List (Command H)) : Prop where
  wf : Wf acc.1
  constants : acc.1.constants = t.constants
  rest : ∀ s, ¬ done s → acc.1.queues s = t.queues s
  kept : ∀ s, done s → Kept t f s (acc.1.queues s)
  nodup : acc.2.Nodup
  dropped : ∀ c, c ∈ acc.2 ↔ InQueues t.queues c ∧ ¬ InQueues acc.1.queues c
  heads : ∀ s c, (acc.1.queues s).head? = some c ↔ (t.queues s).head? = some c ∧ ¬ (done s ∧ Stale t f s)
  unchanged : (∀ s, done s → Untouched t f s) → acc = (t, [])

section Step

variable {t : IndexedPool H} {f : AccountId → AccountNonce × Amount} {done : AccountId → Prop}
  {acc acc' : IndexedPool H × List (Command H)} {s : AccountId} {q : FSeq (Command H)} {r : Amount}
  {first : Command H}

theorem Progress.start (h : Wf t) : Progress t f (fun _ => False) (t, []) where
  wf := h
  constants := rfl
  rest _ _ := rfl
  kept _ hs := hs.elim
  nodup := List.nodup_nil
  dropped c := by simp
  heads s c := by simp
  unchanged _ := rfl

/-- A step that leaves `keep` of one sender's queue and drops `d`. -/
theorem Progress.extend (hp : Progress t f done acc) (h : Wf t) (hnd : ¬ done s) {p : IndexedPool H}
    {keep d : List (Command H)} (hwf : Wf p) (hc : p.constants = t.constants)
    (hqueues : p.queues = Function.update acc.1.queues s keep) (hperm : (t.queues s).Perm (keep ++ d))
    (hkept : Kept t f s keep)
    (hheads : ∀ c, keep.head? = some c ↔ (t.queues s).head? = some c ∧ ¬ Stale t f s)
    (hu : ¬ Untouched t f s) : Progress t f (fun s' => done s' ∨ s' = s) (p, acc.2 ++ d) := by
  have hself : p.queues s = keep := by rw [hqueues, Function.update_self]
  have hother : ∀ s', s' ≠ s → p.queues s' = acc.1.queues s' := fun s' hne => by
    rw [hqueues, Function.update_of_ne hne]
  have hnodup : (keep ++ d).Nodup := hperm.nodup_iff.1 (h.dense s).nodup
  have hmem : ∀ c, c ∈ acc.1.queues s ↔ c ∈ keep ∨ c ∈ d := fun c => by
    rw [hp.rest s hnd, hperm.mem_iff, List.mem_append]
  have hsender : ∀ c ∈ d, c.feePayer = s := fun c hc =>
    h.sender s c (hperm.mem_iff.2 (List.mem_append_right _ hc))
  have hdiff := inQueues_diff (l := acc.1.queues s) keep d rfl hmem
    (fun _ hc hc' => List.disjoint_of_nodup_append hnodup hc hc') hsender
  refine ⟨hwf, hc, ?_, ?_, ?_, ?_, ?_, ?_⟩
  · intro s' hs'
    rw [hother s' fun e => hs' (.inr e)]
    exact hp.rest s' fun hd => hs' (.inl hd)
  · intro s' hs'
    by_cases hss : s' = s
    · rw [hss, hself]
      exact hkept
    · rw [hother s' hss]
      exact hp.kept s' (hs'.resolve_right hss)
  · refine hp.nodup.append hnodup.of_append_right fun c hc hc' => ((hp.dropped c).1 hc).2 ?_
    rw [InQueues, hsender c hc', hmem]
    exact .inr hc'
  · intro c
    rw [List.mem_append, hp.dropped, hqueues, mem_update, ← hdiff c]
    constructor
    · rintro (⟨hc, hn⟩ | hc)
      · exact ⟨hc, fun h => hn h.1⟩
      · refine ⟨?_, fun h => h.2 hc⟩
        rw [InQueues, hsender c hc, ← hp.rest s hnd, hmem]
        exact .inr hc
    · rintro ⟨hc, hn⟩
      by_cases hin : InQueues acc.1.queues c
      · exact .inr (by_contra fun h => hn ⟨hin, h⟩)
      · exact .inl ⟨hc, hin⟩
  · intro s' c
    by_cases hss : s' = s
    · subst hss
      rw [hself, hheads]
      simp
    · rw [hother s' hss, hp.heads]
      simp [hss]
  · exact fun hall => absurd (hall s (.inr rfl)) hu

/-- A stale sender, when nothing was removed before. -/
theorem Progress.stale (hp : Progress t f done acc) (h : Wf t) (hs : t.allBySender[s]? = some (q, r))
    (hnd : ¬ done s) (hstale : Stale t f s) (hdone : ∀ s', done s' → Untouched t f s') :
    ∃ acc', revalidateSender t f acc (s, q, r) = .ok acc' ∧ Progress t f (fun s' => done s' ∨ s' = s) acc' := by
  obtain rfl := hp.unchanged hdone
  obtain ⟨first, hfirst, hlt⟩ := id hstale
  have hq := queues_of_some hs
  obtain ⟨t'', hok, hwf, hqueues, hconst⟩ := revalidateSender_stale h hs (hq ▸ hfirst) hlt (t, [])
  refine ⟨_, hok, hp.extend h hnd hwf hconst hqueues (by rw [hq, List.nil_append]) ?_ (by simp [hstale]) ?_⟩
  · exact ⟨fun _ => rfl, fun hn => absurd hstale hn⟩
  · exact fun hu => absurd (hu first hfirst).1 (ne_of_lt hlt)

/-- A sender that loses nothing. -/
theorem Progress.untouched (hp : Progress t f done acc) (h : Wf t) (hnd : ¬ done s) (hu : Untouched t f s) :
    Progress t f (fun s' => done s' ∨ s' = s) acc where
  wf := hp.wf
  constants := hp.constants
  rest s' hs' := hp.rest s' fun hd => hs' (.inl hd)
  kept s' hs' := by
    rcases hs' with hs' | rfl
    · exact hp.kept s' hs'
    · rw [hp.rest s' hnd]
      exact kept_of_untouched h hu
  nodup := hp.nodup
  dropped := hp.dropped
  heads s' c := by
    rw [hp.heads]
    have hs : ¬ Stale t f s := fun ⟨c, hc, hlt⟩ => absurd (hu c hc).1 (ne_of_lt hlt)
    by_cases hss : s' = s
    · subst hss
      simp [hs]
    · simp [hss]
  unchanged hall := hp.unchanged fun s' hs' => hall s' (.inl hs')

/-- A sender over its balance whose first command fits, when the fee of its
last command is still that of an applicable command. -/
theorem Progress.overBalance (hp : Progress t f done acc) (h : Wf t) (hs : t.allBySender[s]? = some (q, r))
    (hnd : ¬ done s) (hfirst : (t.queues s).head? = some first) (hn : (f s).1 = first.nonce)
    (hover : (f s).2.val < total t.constants (t.queues s)) (hfits : consumedVal t.constants first ≤ (f s).2.val)
    (hkey : ∃ s' head last, (t.queues s').head? = some head ∧ (t.queues s).getLast? = some last ∧
      head.fee = last.fee ∧ ¬(done s' ∧ Stale t f s')) :
    ∃ acc', revalidateSender t f acc (s, q, r) = .ok acc' ∧ Progress t f (fun s' => done s' ∨ s' = s) acc' := by
  have hq := queues_of_some hs
  obtain ⟨hne, hres⟩ := h.stored s q r hs
  have hnstale : ¬ Stale t f s := fun ⟨c, hc, hlt⟩ => by
    rw [hfirst, Option.mem_some_iff] at hc
    exact absurd (hc ▸ hn) (ne_of_lt hlt)
  obtain ⟨q', r', d, hdrop, hres', hle, hlast, hok⟩ :=
    revalidateSender_trim hres (hq ▸ hfirst) (le_of_eq hn.symm) acc
  rw [show (f s).1.val - first.nonce.val = 0 by rw [hn]; omega, List.drop_zero] at hdrop
  rw [show (f s).1.val - first.nonce.val = 0 by rw [hn]; omega, List.take_zero, List.nil_append] at hok
  have hfit : total t.constants q'.toList ≤ (f s).2.val := by
    rw [Fin.le_def, hres'.sum] at hle
    exact hle
  -- the queue is cut in two, and neither part is empty
  have hq'ne : q'.toList ≠ [] := by
    intro hnil
    rw [hnil, List.nil_append] at hdrop
    have hd : first ∈ d.getLast? := by rw [← List.head?_reverse, ← hdrop, ← hq]; exact hfirst
    have := hlast first hd
    rw [hnil] at this
    simp only [total, List.nil_append, List.map_cons, List.map_nil, List.sum_cons, List.sum_nil] at this
    omega
  obtain ⟨last, tail, rfl⟩ : ∃ last tail, d = last :: tail := by
    cases d with
    | nil =>
      rw [List.reverse_nil, List.append_nil] at hdrop
      rw [hq, hdrop] at hover
      omega
    | cons last tail => exact ⟨last, tail, rfl⟩
  have hhead : q'.toList.head? = some first := by
    rw [hq, hdrop, List.head?_append_of_ne_nil _ hq'ne] at hfirst
    exact hfirst
  have hnodup : (q'.toList ++ (last :: tail).reverse).Nodup := hdrop ▸ hq ▸ (h.dense s).nodup
  have hdisj : ∀ c ∈ q'.toList, c ∉ last :: tail := fun c hc hc' =>
    List.disjoint_of_nodup_append hnodup hc (List.mem_reverse.2 hc')
  have hsender : ∀ c ∈ last :: tail, c.feePayer = s := fun c hc =>
    h.sender s c (by rw [hq, hdrop]; exact List.mem_append_right _ (List.mem_reverse.2 hc))
  have haccq : acc.1.queues s = q'.toList ++ (last :: tail).reverse := (hp.rest s hnd).trans (hq.trans hdrop)
  -- the last command is no head, so taking it for one changes nothing
  obtain ⟨s', head, last', hhead', hlast', hfee, hkeep⟩ := hkey
  obtain rfl : last = last' := by
    rw [hq, hdrop] at hlast'
    simpa using hlast'
  have hheadacc : (acc.1.queues s').head? = some head := (hp.heads s' head).2 ⟨hhead', hkeep⟩
  have hishead : IsHead acc.1.queues head := by
    rw [IsHead, hp.wf.sender s' head (List.mem_of_mem_head? hheadacc)]
    exact hheadacc
  obtain ⟨applicable, happ, happ'⟩ := hp.wf.applicable.removeExn_of_key hishead hfee
  have hisne : ∀ c, IsHead acc.1.queues c → c ≠ last := by
    rintro c hc rfl
    rw [IsHead, hsender c (by simp), haccq, List.head?_append_of_ne_nil _ hq'ne] at hc
    exact hdisj c (List.mem_of_mem_head? hc) (by simp)
  -- the other indices
  have hi : Indexed { acc.1 with applicableByFee := applicable } (InQueues acc.1.queues) :=
    hp.wf.indexed.of_eq rfl rfl rfl rfl
  obtain ⟨t₃, ht₃, hi₃, hf₃⟩ := hi.removeList (l := last :: tail)
    (fun c hc => by
      rw [InQueues, hsender c hc, haccq]
      exact List.mem_append_right _ (List.mem_reverse.2 hc))
    (List.nodup_reverse.1 hnodup.of_append_right)
  have hdiff := inQueues_diff q'.toList (last :: tail) haccq
    (fun c => by rw [List.mem_append, List.mem_reverse]) hdisj hsender
  have hset : t₃.allBySender.insert s (q', r') =
      if q'.toList = [] then acc.1.allBySender.erase s else acc.1.allBySender.insert s (q', r') := by
    rw [if_neg hq'ne, hf₃.allBySender]
  have hwf : Wf { t₃ with allBySender := t₃.allBySender.insert s (q', r') } := by
    refine hp.wf.setQueue hf₃.constants hset ((hi₃.congr hdiff).of_eq rfl rfl rfl rfl) ?_ ?_ ?_ ?_
    · simp only [hf₃.applicableByFee]
      refine happ'.congr fun c => ?_
      by_cases hc : c.feePayer = s
      · rw [if_pos hc, and_iff_left_of_imp (hisne c), IsHead, hc, haccq, List.head?_append_of_ne_nil _ hq'ne]
      · rw [if_neg hc, and_iff_left_of_imp (hisne c)]
    · exact fun c hc => h.sender s c (by rw [hq, hdrop]; exact List.mem_append_left _ hc)
    · refine (h.dense s).of_isInfix ?_
      rw [hq, hdrop]
      exact (List.prefix_append _ _).isInfix
    · rw [hp.constants]
      exact hres'
  refine ⟨_, ?_, hp.extend (d := last :: tail) h hnd hwf (hf₃.constants.trans hp.constants)
    (queues_setQueue hset) ?_ ?_ ?_ ?_⟩
  · rw [hok]
    obtain ⟨t₂, ht₂, ht₃⟩ := Exn.fold_cons_eq_ok.1 ht₃
    simp only [removeApplicableExn, happ, Exn.andThen_ok, ht₂, ht₃]
  · rw [hq, hdrop]
    exact (List.reverse_perm _).append_left _
  · refine ⟨fun hst => absurd hst hnstale, fun _ => ?_⟩
    have hfilter := mem_filter_nonce (n := (f s).1) (fun c hc => by
      rw [hfirst, Option.mem_some_iff] at hc
      rw [hn, hc]) (h.dense s)
    obtain ⟨c, hc⟩ : ∃ c, c ∈ (last :: tail).getLast? := ⟨_, List.getLast?_cons⟩
    have hrest : (last :: tail).reverse = c :: ((last :: tail).reverse).tail := by
      rw [← List.head?_reverse] at hc
      exact (List.cons_head?_tail hc).symm
    rw [hfilter, hq, hdrop, hrest]
    exact .of_next hfit (hlast c hc)
  · intro c
    rw [hhead, hfirst]
    simp [hnstale]
  · exact fun hu => absurd (hu first hfirst).2 (by omega)

/-- A good sender's step. -/
theorem Progress.step (hp : Progress t f done acc) (h : Wf t) (hs : t.allBySender[s]? = some (q, r))
    (hdone : ∀ s', done s' → s' < s) (hg : GoodSender t f s) :
    ∃ acc', revalidateSender t f acc (s, q, r) = .ok acc' ∧ Progress t f (fun s' => done s' ∨ s' = s) acc' := by
  have hnd : ¬ done s := fun hd => absurd (hdone s hd) (lt_irrefl s)
  by_cases hst : Stale t f s
  · exact hp.stale h hs hnd hst fun s' hd => hg.1 hst s' (hdone s' hd)
  obtain ⟨hne, hres⟩ := h.stored s q r hs
  have hq := queues_of_some hs
  obtain ⟨first, hfirst⟩ : ∃ first, q.toList.head? = some first := by
    cases hl : q.toList with
    | nil => exact absurd hl hne
    | cons first l => exact ⟨first, rfl⟩
  obtain ⟨hn, hg⟩ := hg.2 hst first (hq ▸ hfirst)
  by_cases hle : total t.constants (t.queues s) ≤ (f s).2.val
  · have hu : Untouched t f s := fun c hc => by
      rw [hq, hfirst, Option.mem_some_iff] at hc
      exact ⟨hc ▸ hn, hle⟩
    refine ⟨acc, ?_, hp.untouched h hnd hu⟩
    obtain ⟨q', r', d, hdrop, hres', -, hlast, hok⟩ :=
      revalidateSender_trim hres hfirst (le_of_eq hn.symm) acc
    rw [show (f s).1.val - first.nonce.val = 0 by rw [hn]; omega, List.drop_zero] at hdrop
    rw [show (f s).1.val - first.nonce.val = 0 by rw [hn]; omega, List.take_zero, List.nil_append] at hok
    cases d with
    | nil => exact hok
    | cons last tail =>
      exfalso
      obtain ⟨c, hc⟩ : ∃ c, c ∈ (last :: tail).getLast? := ⟨_, List.getLast?_cons⟩
      have hpre : q'.toList ++ [c] <+: q.toList := by
        refine ⟨((last :: tail).reverse).tail, ?_⟩
        rw [← List.head?_reverse] at hc
        rw [hdrop, List.append_assoc, List.singleton_append, List.cons_head?_tail hc]
      have := hlast c hc
      have := total_mono (K := t.constants) hpre
      rw [hq] at hle
      omega
  · obtain ⟨hfits, s', head, last, hhead, hlast, hfee, hkeep⟩ := hg.resolve_left hle
    exact hp.overBalance h hs hnd (hq ▸ hfirst) hn (not_le.1 hle) hfits
      ⟨s', head, last, hhead, hlast, hfee, fun hd => hkeep ⟨hdone s' hd.1, hd.2⟩⟩

/-! ## The first bad sender -/

/-- What no correct answer shows of a sender that should lose something: its
old queue, or a stored queue whose head is missing from the applicable
commands or does not exist. -/
def Broken (t : IndexedPool H) (s : AccountId) (p : IndexedPool H) : Prop :=
  p.queues s = t.queues s ∨
    ∃ q r, p.allBySender[s]? = some (q, r) ∧ ∀ c ∈ q.toList.head?, ¬ p.applicableByFee.Mem c.fee c

theorem Broken.not_revalidated (ht : ¬ Untouched t f s) {p : IndexedPool H} (hb : Broken t s p)
    (d : List (Command H)) : ¬ Revalidated t f p d := by
  intro hr
  rcases hb with heq | ⟨q, r, hs, hhead⟩
  · exact not_kept_of_touched ht (heq ▸ hr.kept s)
  · have hq := queues_of_some hs
    have hne := (hr.wf.stored s q r hs).1
    cases hl : q.toList with
    | nil => exact hne hl
    | cons c l =>
      rw [hl] at hhead hq
      refine hhead c rfl ((hr.wf.applicable.mem _ _).2 ⟨rfl, ?_⟩)
      rw [IsHead, hr.wf.sender s c (by simp [hq]), hq]
      rfl

/-- A sender that is not stale takes nothing into the applicable commands,
and leaves every other sender's queue alone. -/
theorem revalidateSender_frame (h : Wf t) (hs : t.allBySender[s]? = some (q, r)) (hn : ¬ Stale t f s)
    (hok : revalidateSender t f acc (s, q, r) = .ok acc') :
    (∀ s' ≠ s, acc'.1.allBySender[s']? = acc.1.allBySender[s']?) ∧
      ∀ i c, acc'.1.applicableByFee.Mem i c → acc.1.applicableByFee.Mem i c := by
  obtain ⟨hne, hres⟩ := h.stored s q r hs
  obtain ⟨first, hfirst⟩ : ∃ first, q.toList.head? = some first := by
    cases hl : q.toList with
    | nil => exact absurd hl hne
    | cons first l => exact ⟨first, rfl⟩
  have hnf : first.nonce ≤ (f s).1 := not_lt.1 fun hlt => hn ⟨first, by rw [queues_of_some hs]; exact hfirst, hlt⟩
  obtain ⟨q', r', d, -, -, -, -, htrim⟩ := revalidateSender_trim hres hfirst hnf acc
  rw [htrim] at hok
  split at hok
  · cases hok
    exact ⟨fun _ _ => rfl, fun _ _ hm => hm⟩
  · next head tail _ =>
    obtain ⟨t₁, ht₁, hok⟩ := Exn.andThen_eq_ok.1 hok
    obtain ⟨t₂, ht₂, hok⟩ := Exn.andThen_eq_ok.1 hok
    obtain ⟨t₃, ht₃, hok⟩ := Exn.andThen_eq_ok.1 hok
    cases hok
    have hf := (removeAllByFeeAndHashAndExpirationExn_frame ht₂).trans (removeList_frame ht₃)
    obtain ⟨m, hm, ht₁⟩ := Exn.andThen_eq_ok.1 ht₁
    cases ht₁
    refine ⟨fun s' hss => ?_, fun i c hc => ?_⟩
    · simp only [hf.allBySender, ExtTreeMap.getElem?_insert, compare_eq_iff_eq, if_neg (Ne.symm hss)]
    · simp only [hf.applicableByFee] at hc
      exact MapSet.mem_of_removeExn hm hc

/-- Broken it stays: the steps of other senders repair nothing. -/
theorem Broken.step (hb : Broken t s acc.1) (h : Wf t) {s' : AccountId} (hss : s ≠ s')
    (hs : t.allBySender[s']? = some (q, r)) (hok : revalidateSender t f acc (s', q, r) = .ok acc') :
    Broken t s acc'.1 := by
  by_cases hst : Stale t f s'
  · obtain ⟨first, hfirst, hlt⟩ := hst
    rw [queues_of_some hs] at hfirst
    obtain ⟨t'', hok', -, hqueues, -⟩ := revalidateSender_stale h hs hfirst hlt acc
    rw [hok', Except.ok.injEq] at hok
    subst hok
    exact .inl (by rw [hqueues, Function.update_of_ne hss])
  · obtain ⟨hby, happ⟩ := revalidateSender_frame h hs hst hok
    rcases hb with heq | ⟨q', r', hs', hhead⟩
    · exact .inl (by rw [← heq, queues, queues, hby s hss])
    · exact .inr ⟨q', r', by rw [hby s hss, hs'], fun c hc hm => hhead c hc (happ _ _ hm)⟩

/-- A bad sender's step raises, or breaks a sender that is not to come. -/
theorem Progress.bad (hp : Progress t f done acc) (h : Wf t) (hs : t.allBySender[s]? = some (q, r))
    (hdone : ∀ s', done s' → s' < s) (hall : ∀ s' < s, t.queues s' ≠ [] → done s') (hg : ¬ GoodSender t f s)
    (hok : revalidateSender t f acc (s, q, r) = .ok acc') :
    ∃ s' ≤ s, ¬ Untouched t f s' ∧ Broken t s' acc'.1 := by
  have hnd : ¬ done s := fun hd => absurd (hdone s hd) (lt_irrefl s)
  have hq := queues_of_some hs
  obtain ⟨hne, hres⟩ := h.stored s q r hs
  obtain ⟨first, hfirst⟩ : ∃ first, q.toList.head? = some first := by
    cases hl : q.toList with
    | nil => exact absurd hl hne
    | cons first l => exact ⟨first, rfl⟩
  by_cases hst : Stale t f s
  -- the pool before any removal is back
  · obtain ⟨s', hlt, hu⟩ : ∃ s' < s, ¬ Untouched t f s' := by
      by_contra hno
      push Not at hno
      exact hg ⟨fun _ => hno, fun hn => absurd hst hn⟩
    obtain ⟨c, hc, hcn⟩ := hst
    rw [hq] at hc
    obtain ⟨t'', hok', -, hqueues, -⟩ := revalidateSender_stale h hs hc hcn acc
    rw [hok', Except.ok.injEq] at hok
    subst hok
    exact ⟨s', hlt.le, hu, .inl (by rw [hqueues, Function.update_of_ne hlt.ne])⟩
  have hbad : (f s).1 = first.nonce → (f s).2.val < total t.constants (t.queues s) ∧
      (consumedVal t.constants first ≤ (f s).2.val → ∀ s' head last, (t.queues s').head? = some head →
        (t.queues s).getLast? = some last → head.fee = last.fee → s' < s ∧ Stale t f s') := by
    intro hn
    by_contra hno
    refine hg ⟨fun hs => absurd hs hst, fun _ c hc => ?_⟩
    rw [hq, hfirst, Option.mem_some_iff] at hc
    subst hc
    refine ⟨hn, ?_⟩
    by_contra hno'
    push Not at hno'
    exact hno ⟨hno'.1, fun hf s' head last h₁ h₂ h₃ => hno'.2 hf s' head last h₁ h₂ h₃⟩
  refine ⟨s, le_rfl, fun hu => ?_, .inr ?_⟩
  · obtain ⟨hn, hle⟩ := hu first (hq ▸ hfirst)
    exact absurd (hbad hn).1 (by omega)
  have hnf : first.nonce ≤ (f s).1 := not_lt.1 fun hlt => hst ⟨first, hq ▸ hfirst, hlt⟩
  obtain ⟨q', r', d, hdrop, hres', hle, -, htrim⟩ := revalidateSender_trim hres hfirst hnf acc
  have hfit : total t.constants q'.toList ≤ (f s).2.val := by
    rw [Fin.le_def, hres'.sum] at hle
    exact hle
  have hsub : ∀ c ∈ q'.toList, c ∈ q.toList.drop ((f s).1.val - first.nonce.val) := fun c hc => by
    rw [hdrop]
    exact List.mem_append_left _ hc
  -- a head that is still applicable is the old one
  have hold : ∀ c ∈ q'.toList, acc.1.applicableByFee.Mem c.fee c → c = first := by
    intro c hc hm
    have hcs : c.feePayer = s := h.sender s c (by rw [hq]; exact List.mem_of_mem_drop (hsub c hc))
    have hh := ((hp.wf.applicable.mem _ _).1 hm).2
    rw [IsHead, hcs, hp.rest s hnd, hq, hfirst, Option.some.injEq] at hh
    exact hh.symm
  rw [htrim] at hok
  split at hok
  · next hnil =>
    exfalso
    rw [List.append_eq_nil_iff, List.take_eq_nil_iff] at hnil
    obtain ⟨hk, rfl⟩ := hnil
    have hk := hk.resolve_right hne
    have hn : (f s).1 = first.nonce := le_antisymm (by rw [Fin.le_def]; omega) hnf
    rw [hk, List.drop_zero, List.reverse_nil, List.append_nil] at hdrop
    have := (hbad hn).1
    rw [hq, hdrop] at this
    omega
  · next head tail hlist =>
    obtain ⟨t₁, ht₁, hok⟩ := Exn.andThen_eq_ok.1 hok
    obtain ⟨t₂, ht₂, hok⟩ := Exn.andThen_eq_ok.1 hok
    obtain ⟨t₃, ht₃, hok⟩ := Exn.andThen_eq_ok.1 hok
    cases hok
    have hf := (removeAllByFeeAndHashAndExpirationExn_frame ht₂).trans (removeList_frame ht₃)
    obtain ⟨m, hm, ht₁⟩ := Exn.andThen_eq_ok.1 ht₁
    cases ht₁
    refine ⟨q', r', by simp, fun c hc hmem => ?_⟩
    simp only [hf.applicableByFee] at hmem
    have hcq := List.mem_of_mem_head? hc
    have hfc := hold c hcq (MapSet.mem_of_removeExn hm hmem)
    subst hfc
    by_cases hk : (f s).1.val - c.nonce.val = 0
    -- nothing has too low a nonce, so the key under which the last command was looked up exists
    · have hn : (f s).1 = c.nonce := le_antisymm (by rw [Fin.le_def]; omega) hnf
      rw [hk, List.take_zero, List.nil_append] at hlist
      rw [hk, List.drop_zero] at hdrop
      have hfits : consumedVal t.constants c ≤ (f s).2.val := by
        refine le_trans ?_ hfit
        exact List.le_sum_of_mem (List.mem_map_of_mem hcq)
      obtain ⟨y, hy⟩ := MapSet.removeExn_key hm hp.wf.applicable.noEmpty
      obtain ⟨hfee, hy⟩ := (hp.wf.applicable.mem _ _).1 hy
      obtain ⟨hhead, hkeep⟩ := (hp.heads y.feePayer y).1 hy
      have hlast : (t.queues s).getLast? = some head := by rw [hq, hdrop, hlist]; simp
      obtain ⟨hlt, hstale⟩ := (hbad hn).2 hfits y.feePayer y head hhead hlast hfee
      exact hkeep ⟨hall _ hlt (by rintro hnil; simp [hnil] at hhead), hstale⟩
    -- the old head has too low a nonce, and is not in the new queue
    · have hnodup : (q.toList.take ((f s).1.val - c.nonce.val) ++ q.toList.drop ((f s).1.val - c.nonce.val)).Nodup := by
        rw [List.take_append_drop, ← hq]
        exact (h.dense s).nodup
      refine List.disjoint_of_nodup_append hnodup ?_ (hsub c hcq)
      obtain ⟨k, hk'⟩ := Nat.exists_eq_succ_of_ne_zero hk
      rw [hk']
      cases hl : q.toList with
      | nil => exact absurd hl hne
      | cons a l =>
        rw [hl, List.head?_cons, Option.some.injEq] at hfirst
        simp [hfirst]

end Step

/-! ## The fold -/

section Fold

variable {t : IndexedPool H} {f : AccountId → AccountNonce × Amount}

theorem Broken.fold (h : Wf t) {s : AccountId} {l : List (AccountId × FSeq (Command H) × Amount)}
    (hl : ∀ e ∈ l, t.allBySender[e.1]? = some e.2 ∧ s < e.1) {acc acc' : IndexedPool H × List (Command H)}
    (hb : Broken t s acc.1) (hok : Exn.fold (revalidateSender t f) acc l = .ok acc') : Broken t s acc'.1 := by
  refine Exn.fold_induct (P := fun acc => Broken t s acc.1) (fun acc e acc' he hb hok => ?_) hb hok
  exact hb.step h (ne_of_lt (hl e he).2) (hl e he).1 hok

/-- A run over the senders that are left: right when all of them are good,
and otherwise raised or broken. -/
theorem Progress.fold (h : Wf t) {l : List (AccountId × FSeq (Command H) × Amount)}
    (hl : ∀ e ∈ l, t.allBySender[e.1]? = some e.2) (hsorted : l.Pairwise fun e e' => e.1 < e'.1)
    {done : AccountId → Prop} (hdone : ∀ s, done s → ∀ e ∈ l, s < e.1)
    (hall : ∀ s, t.queues s ≠ [] → done s ∨ s ∈ l.map Prod.fst) {acc : IndexedPool H × List (Command H)}
    (hp : Progress t f done acc) :
    ((∀ e ∈ l, GoodSender t f e.1) ∧ ∃ acc', Exn.fold (revalidateSender t f) acc l = .ok acc' ∧
        ∃ done', (∀ s, t.queues s ≠ [] → done' s) ∧ Progress t f done' acc') ∨
      (∃ e ∈ l, ¬ GoodSender t f e.1) ∧ ∀ acc', Exn.fold (revalidateSender t f) acc l = .ok acc' →
        ∃ s, ¬ Untouched t f s ∧ Broken t s acc'.1 := by
  induction l generalizing done acc with
  | nil => exact .inl ⟨by simp, acc, rfl, done, by simpa using hall, hp⟩
  | cons e l ih =>
    obtain ⟨s, q, r⟩ := e
    rw [List.pairwise_cons] at hsorted
    have hs := hl (s, q, r) (by simp)
    have hlt : ∀ s', done s' → s' < s := fun s' hd => hdone s' hd (s, q, r) (by simp)
    have hrest : ∀ e ∈ l, t.allBySender[e.1]? = some e.2 := fun e he => hl e (by simp [he])
    by_cases hg : GoodSender t f s
    · obtain ⟨acc₁, hok, hp₁⟩ := hp.step h hs hlt hg
      refine (ih hrest hsorted.2 ?_ ?_ hp₁).imp ?_ ?_
      · rintro s' (hd | rfl) e he
        · exact hdone s' hd e (by simp [he])
        · exact hsorted.1 e he
      · intro s' hne
        rcases hall s' hne with hd | hm
        · exact .inl (.inl hd)
        · rcases List.mem_cons.1 hm with rfl | hm
          · exact .inl (.inr rfl)
          · exact .inr hm
      · rintro ⟨hgood, acc', hok', hdone'⟩
        refine ⟨fun e he => ?_, acc', by rw [Exn.fold, hok, Exn.andThen_ok, hok'], hdone'⟩
        rcases List.mem_cons.1 he with rfl | he
        · exact hg
        · exact hgood e he
      · rintro ⟨⟨e, he, hbad⟩, hbroken⟩
        refine ⟨⟨e, by simp [he], hbad⟩, fun acc' hok' => ?_⟩
        rw [Exn.fold, hok, Exn.andThen_ok] at hok'
        exact hbroken acc' hok'
    · refine .inr ⟨⟨(s, q, r), by simp, hg⟩, fun acc' hok => ?_⟩
      obtain ⟨acc₁, hok₁, hok⟩ := Exn.fold_cons_eq_ok.1 hok
      have hbefore : ∀ s' < s, t.queues s' ≠ [] → done s' := by
        intro s' hlt' hne
        rcases hall s' hne with hd | hm
        · exact hd
        · rcases List.mem_cons.1 hm with heq | hm
          · exact absurd heq (ne_of_lt hlt')
          · obtain ⟨e, he, rfl⟩ := List.mem_map.1 hm
            exact absurd (hsorted.1 e he) (not_lt.2 hlt'.le)
      obtain ⟨s', hle, hu, hb⟩ := hp.bad h hs hlt hbefore hg hok₁
      exact ⟨s', hu, hb.fold h (fun e he => ⟨hrest e he, lt_of_le_of_lt hle (hsorted.1 e he)⟩) hok⟩

/-- A sender with nothing queued is good. -/
theorem goodSender_of_nil {s : AccountId} (hs : t.queues s = []) : GoodSender t f s :=
  ⟨fun ⟨c, hc, _⟩ => by simp [hs] at hc, fun _ c hc => by simp [hs] at hc⟩

/-- The whole run: right when every sender is good, and otherwise raised or
wrong. -/
theorem revalidate_run (h : Wf t) :
    ((∀ s, GoodSender t f s) ∧ ∃ t' dropped, revalidate t f = .ok (t', dropped) ∧ Revalidated t f t' dropped) ∨
      (∃ s, ¬ GoodSender t f s) ∧ ∀ t' dropped, revalidate t f = .ok (t', dropped) →
        ¬ Revalidated t f t' dropped := by
  have hl : ∀ e ∈ t.allBySender.toList, t.allBySender[e.1]? = some e.2 := fun e he =>
    ExtTreeMap.mem_toList_iff_getElem?_eq_some.1 he
  have hsorted : t.allBySender.toList.Pairwise fun e e' => e.1 < e'.1 :=
    (ExtTreeMap.ordered_keys_toList (t := t.allBySender)).imp fun hlt => compare_lt_iff_lt.1 hlt
  have hall : ∀ s, t.queues s ≠ [] → s ∈ t.allBySender.toList.map Prod.fst := fun s hne => by
    obtain ⟨q, r, hs, -⟩ := Wf.stored_of_mem hne
    exact List.mem_map.2 ⟨(s, q, r), ExtTreeMap.mem_toList_iff_getElem?_eq_some.2 hs, rfl⟩
  rw [revalidate]
  refine (Progress.fold h hl hsorted (fun _ hd => hd.elim) (fun s hne => .inr (hall s hne))
    (Progress.start (f := f) h)).imp ?_ ?_
  · rintro ⟨hgood, acc', hok, done, hdone, hp⟩
    refine ⟨fun s => ?_, acc'.1, acc'.2, hok, hp.wf, fun s => ?_, hp.nodup, hp.dropped⟩ <;>
      by_cases hs : t.queues s = []
    · exact goodSender_of_nil hs
    · obtain ⟨e, he, rfl⟩ := List.mem_map.1 (hall s hs)
      exact hgood e he
    · by_cases hd : done s
      · exact hp.kept s hd
      · rw [hp.rest s hd]
        exact kept_of_untouched h fun c hc => by simp [hs] at hc
    · exact hp.kept s (hdone s hs)
  · rintro ⟨⟨e, -, hbad⟩, hbroken⟩
    refine ⟨⟨e.1, hbad⟩, fun t' d hok => ?_⟩
    obtain ⟨s, hu, hb⟩ := hbroken _ hok
    exact hb.not_revalidated hu d

/-- **When `revalidate` keeps exactly the still-valid commands.** From a
well-formed pool it answers without raising with a well-formed pool that
holds the longest fitting prefix of every queue, and with the commands that
are gone, each once, exactly when every sender is good. -/
theorem revalidate_keeps_valid_iff (h : Wf t) :
    (∃ t' dropped, revalidate t f = .ok (t', dropped) ∧ Revalidated t f t' dropped) ↔
      ∀ s, GoodSender t f s := by
  rcases revalidate_run (f := f) h with ⟨hgood, hright⟩ | ⟨⟨s, hbad⟩, hwrong⟩
  · exact ⟨fun _ => hgood, fun _ => hright⟩
  · exact ⟨fun ⟨t', d, hok, hr⟩ => absurd hr (hwrong t' d hok), fun hgood => absurd (hgood s) hbad⟩

end Fold

/-- The queues of a pool with one command. -/
theorem samplePool_queues (c : Command encodeHash) (a : Amount) (s : AccountId) :
    (samplePool c a).queues s = if s = c.feePayer then [c] else [] := by
  by_cases hs : s = c.feePayer
  · rw [if_pos hs, hs, queues_of_some (samplePool_stored c a), FSeq.toList_singleton]
  · rw [if_neg hs, queues_of_none]
    simp [samplePool, Ne.symm hs]

/-- A pool with one command whose nonce is the current one and whose fee is
in the balance: it is kept. -/
theorem revalidate_keeps_valid_one :
    ∃ t' dropped, revalidate (samplePool (sampleCommand 1 0 samplePk) 1) (fun _ => (0, 10)) = .ok (t', dropped) ∧
      Revalidated (samplePool (sampleCommand 1 0 samplePk) 1) (fun _ => (0, 10)) t' dropped := by
  have hwf := samplePool_wf (currencyConsumed_sample 1 0 samplePk sampleConstants)
  refine (revalidate_keeps_valid_iff hwf).2 fun s => ?_
  by_cases hs : s = (sampleCommand 1 0 samplePk).feePayer
  · have hq : (samplePool (sampleCommand 1 0 samplePk) 1).queues s = [sampleCommand 1 0 samplePk] := by
      rw [samplePool_queues, if_pos hs]
    refine ⟨?_, fun _ first hfirst => ?_⟩
    · rintro ⟨c, hc, hlt⟩
      rw [hq, List.head?_cons, Option.mem_some_iff] at hc
      subst hc
      exact absurd hlt (lt_irrefl 0)
    · rw [hq, List.head?_cons, Option.mem_some_iff] at hfirst
      refine ⟨hfirst ▸ rfl, .inl ?_⟩
      rw [hq]
      simp only [total, List.map_cons, List.map_nil, List.sum_cons, List.sum_nil]
      rw [show consumedVal (samplePool (sampleCommand 1 0 samplePk) 1).constants (sampleCommand 1 0 samplePk) = 1
        from consumedVal_eq (currencyConsumed_sample 1 0 samplePk sampleConstants)]
      decide
  · exact goodSender_of_nil (by rw [samplePool_queues, if_neg hs])

/-- **`revalidate` leaves an empty queue.** The only command of the pool has
nonce 0, and the sender's current nonce is 1. -/
theorem revalidate_keeps_valid_passed :
    ∃ (t : IndexedPool encodeHash) (f : AccountId → AccountNonce × Amount), Wf t ∧
      ¬ ∃ t' dropped, revalidate t f = .ok (t', dropped) ∧ Revalidated t f t' dropped := by
  have hwf := samplePool_wf (currencyConsumed_sample 1 0 samplePk sampleConstants)
  refine ⟨samplePool (sampleCommand 1 0 samplePk) 1, fun _ => (1, 10), hwf, ?_⟩
  rintro ⟨t', d, hok, hr⟩
  rcases revalidate_run (f := fun _ => (1, 10)) hwf with ⟨hgood, -⟩ | ⟨-, hwrong⟩
  · have hq := samplePool_queues (sampleCommand 1 0 samplePk) 1 (sampleCommand 1 0 samplePk).feePayer
    rw [if_pos rfl] at hq
    have hstale : ¬ Stale (samplePool (sampleCommand 1 0 samplePk) 1) (fun _ => (1, 10))
        (sampleCommand 1 0 samplePk).feePayer := by
      rintro ⟨c, hc, hlt⟩
      rw [hq, List.head?_cons, Option.mem_some_iff] at hc
      subst hc
      exact absurd hlt (by decide)
    have := ((hgood _).2 hstale (sampleCommand 1 0 samplePk) (by rw [hq]; rfl)).1
    exact absurd this (by decide)
  · exact hwrong t' d hok hr

end Mina.IndexedPool
