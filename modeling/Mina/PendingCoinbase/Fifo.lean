/-
The pending coinbases are a queue of stacks over a fixed Merkle tree
(`fifo`).

The queue (`Queue`) is the list of the pending stacks and the number of the
removed ones. The stack that was added as the `n`-th is at the leaf
`position n`: the ids go round, and the leaf of an id has its bits in the
other order. While no more than `2 ^ depth` stacks are pending their leaves
are different, so the tree's leaves (`leaves`) follow the queue: an update
writes one leaf, a removal empties one.
-/
import Mina.PendingCoinbase.PendingCoinbaseFacts

namespace Mina.PendingCoinbase

open Merkle

variable {F : Type} (O : RandomOracle F) (depth : Nat)

/-! ## The leaves of the pending stacks -/

/-- The leaf of the stack that is added as the `n`-th, from zero on. -/
def position (n : Nat) : Nat := bitReverse depth (n % 2 ^ depth)

/-- The leaves when `l` is pending, its first stack added as the `n`-th. -/
def leaves : Nat → List (Stack F) → Nat → Stack F
  | _, [] => fun _ => Stack.empty O
  | n, s :: l => Function.update (leaves (n + 1) l) (position depth n) s

variable {depth}

theorem position_lt (n : Nat) : position depth n < 2 ^ depth := bitReverse_lt _ _

theorem mod_ne {m n b : Nat} (hmn : m < n) (hn : n < m + b) : m % b ≠ n % b := by
  intro h
  have hdvd := (Nat.modEq_iff_dvd' hmn.le).1 h
  have := Nat.le_of_dvd (by omega) hdvd
  omega

theorem position_ne {m n : Nat} (hmn : m < n) (hn : n < m + 2 ^ depth) : position depth m ≠ position depth n := by
  intro h
  have hpos := Nat.two_pow_pos depth
  exact mod_ne hmn hn (bitReverse_injective (Nat.mod_lt _ hpos) (Nat.mod_lt _ hpos) h)

theorem leaves_head (n : Nat) (s : Stack F) (l : List (Stack F)) :
    leaves O depth n (s :: l) (position depth n) = s := Function.update_self _ _ _

theorem leaves_of_ne {p : Nat} : ∀ {n : Nat} {l : List (Stack F)},
    (∀ i < l.length, p ≠ position depth (n + i)) → leaves O depth n l p = Stack.empty O
  | _, [], _ => rfl
  | n, s :: l, hp => by
    have hne : p ≠ position depth n := hp 0 (by simp)
    rw [leaves, Function.update_of_ne hne]
    refine leaves_of_ne fun i hi => ?_
    have := hp (i + 1) (by simpa using hi)
    rwa [← Nat.add_assoc, Nat.add_right_comm] at this

theorem leaves_append (s : Stack F) : ∀ {n : Nat} {l : List (Stack F)}, l.length < 2 ^ depth →
    leaves O depth n (l ++ [s]) = Function.update (leaves O depth n l) (position depth (n + l.length)) s
  | _, [], _ => rfl
  | n, a :: l, hl => by
    rw [List.length_cons] at hl
    have hne : position depth n ≠ position depth (n + (l.length + 1)) := position_ne (by omega) (by omega)
    rw [List.cons_append, leaves, leaves_append s (by omega), leaves, List.length_cons,
      show n + 1 + l.length = n + (l.length + 1) by omega, Function.update_comm hne.symm]

theorem leaves_last {n : Nat} {l : List (Stack F)} (s : Stack F) (hl : l.length < 2 ^ depth) :
    leaves O depth n (l ++ [s]) (position depth (n + l.length)) = s := by
  rw [leaves_append O s hl, Function.update_self]

theorem leaves_set_last {n : Nat} {l : List (Stack F)} (s s' : Stack F) (hl : l.length < 2 ^ depth) :
    Function.update (leaves O depth n (l ++ [s])) (position depth (n + l.length)) s' =
      leaves O depth n (l ++ [s']) := by
  rw [leaves_append O s hl, leaves_append O s' hl, Function.update_idem]

theorem leaves_tail {n : Nat} {l : List (Stack F)} (s : Stack F) (hl : l.length < 2 ^ depth) :
    Function.update (leaves O depth n (s :: l)) (position depth n) (Stack.empty O) = leaves O depth (n + 1) l := by
  have hfree : leaves O depth (n + 1) l (position depth n) = Stack.empty O :=
    leaves_of_ne O fun i hi => position_ne (by omega) (by omega)
  rw [leaves, Function.update_idem, ← hfree, Function.update_eq_self]

/-! ## The queue -/

/-- How many stacks have been removed, and the pending ones in the order in
which they were added. -/
structure Queue (F : Type) where
  removed : Nat
  pending : List (Stack F)

inductive Op (F : Type) where
  /-- `update_coinbase_stack ~is_new_stack:true` -/
  | push (stack : Stack F)
  /-- `update_coinbase_stack ~is_new_stack:false` -/
  | update (stack : Stack F)
  /-- `remove_coinbase_stack` -/
  | remove

namespace Queue

variable (depth)

def Allowed (q : Queue F) : Op F → Prop
  | .push _ => q.pending.length < 2 ^ depth
  | .update _ => q.pending ≠ []
  | .remove => True

variable {depth}

def step (q : Queue F) : Op F → Queue F
  | .push s => { q with pending := q.pending ++ [s] }
  | .update s => { q with pending := q.pending.dropLast ++ [s] }
  | .remove => { removed := q.removed + min 1 q.pending.length, pending := q.pending.tail }

/-- What an operation answers: a removal gives the stack, or an error when
none is pending. -/
def answer (q : Queue F) : Op F → Exn (Option (Stack F))
  | .push _ => .ok none
  | .update _ => .ok none
  | .remove =>
    match q.pending with
    | [] => .error "No coinbase stack-with-state-hash to pop"
    | s :: _ => .ok (some s)

variable (depth)

def AllAllowed : Queue F → List (Op F) → Prop
  | _, [] => True
  | q, op :: ops => q.Allowed depth op ∧ AllAllowed (q.step op) ops

variable {depth}

def run (q : Queue F) (ops : List (Op F)) : Queue F := ops.foldl step q

def answers : Queue F → List (Op F) → List (Exn (Option (Stack F)))
  | _, [] => []
  | q, op :: ops => q.answer op :: answers (q.step op) ops

end Queue

/-! ## The operations on the tree -/

variable (depth)

def Op.exec (t : T F) : Op F → Exn (Option (Stack F) × T F)
  | .push s => (updateCoinbaseStack O depth t s true).andThen fun t' => .ok (none, t')
  | .update s => (updateCoinbaseStack O depth t s false).andThen fun t' => .ok (none, t')
  | .remove => (removeCoinbaseStack O depth t).andThen fun r => .ok (some r.1, r.2)

/-- What an operation answers, and the collection after it: the same one
when there is an error. -/
def step (t : T F) (op : Op F) : Exn (Option (Stack F)) × T F :=
  match op.exec O depth t with
  | .ok r => (.ok r.1, r.2)
  | .error e => (.error e, t)

def run (t : T F) (ops : List (Op F)) : T F := ops.foldl (fun t op => (step O depth t op).2) t

def answers : T F → List (Op F) → List (Exn (Option (Stack F)))
  | _, [] => []
  | t, op :: ops => (step O depth t op).1 :: answers (step O depth t op).2 ops

theorem step_of_exec {t : T F} (t' : T F) {op : Op F} (s : Option (Stack F)) (h : op.exec O depth t = .ok (s, t')) :
    step O depth t op = (.ok s, t') := by
  rw [step, h]

/-! ## The collection holds the queue -/

/-- The ids of the queue's stacks, the oldest first. -/
def Queue.ids (q : Queue F) : List Nat := (List.range q.pending.length).map fun i => (q.removed + i) % 2 ^ depth

/-- The invariant that every operation keeps. -/
structure Holds (q : Queue F) (t : T F) : Prop where
  shape : Shape O depth (leaves O depth q.removed q.pending) t
  room : q.pending.length ≤ 2 ^ depth
  posList : t.posList.reverse = q.ids depth
  newPos : t.newPos = (q.removed + q.pending.length) % 2 ^ depth

variable {O depth} {q : Queue F} {t : T F}

theorem Queue.ids_append (n : Nat) (l : List (Stack F)) (s : Stack F) :
    Queue.ids depth ⟨n, l ++ [s]⟩ = Queue.ids depth ⟨n, l⟩ ++ [(n + l.length) % 2 ^ depth] := by
  simp only [Queue.ids, List.length_append, List.length_singleton, List.range_succ, List.map_append,
    List.map_singleton]

theorem Queue.ids_cons (n : Nat) (l : List (Stack F)) (s : Stack F) :
    Queue.ids depth ⟨n, s :: l⟩ = n % 2 ^ depth :: Queue.ids depth ⟨n + 1, l⟩ := by
  simp only [Queue.ids, List.length_cons, List.range_succ_eq_map, List.map_cons, List.map_map, Nat.add_zero]
  refine congrArg _ (List.map_congr_left fun i _ => ?_)
  rw [Function.comp_apply, Nat.succ_eq_add_one, Nat.add_assoc, Nat.add_comm 1 i]

/-- The newest id is the one of the last stack. -/
theorem Holds.head_posList {n : Nat} {l : List (Stack F)} {s : Stack F} (h : Holds O depth ⟨n, l ++ [s]⟩ t) :
    t.posList.head? = some ((n + l.length) % 2 ^ depth) := by
  rw [← List.getLast?_reverse, h.posList, Queue.ids_append, List.getLast?_concat]

/-- The oldest id is the one of the first stack. -/
theorem Holds.last_posList {n : Nat} {l : List (Stack F)} {s : Stack F} (h : Holds O depth ⟨n, s :: l⟩ t) :
    t.posList.getLast? = some (n % 2 ^ depth) := by
  rw [← List.head?_reverse, h.posList, Queue.ids_cons, List.head?_cons]

theorem Holds.push (h : Holds O depth q t) (hroom : q.pending.length < 2 ^ depth) (s : Stack F) :
    ∃ t', updateCoinbaseStack O depth t s true = .ok t' ∧ Holds O depth (q.step (.push s)) t' := by
  have hnew : t.newPos < 2 ^ depth := by
    rw [h.newPos]
    exact Nat.mod_lt _ (Nat.two_pow_pos depth)
  have hlt := bitReverse_lt depth t.newPos
  obtain ⟨t', ht', hshape, hpos, hnext⟩ := h.shape.setStack_new hnew hlt s
  refine ⟨t', ?_, ?_, ?_, ?_, ?_⟩
  · rw [updateCoinbaseStack, updateStack, latestStackId, if_pos rfl, h.shape.index _ hnew, Exn.andThen_ok,
      h.shape.getStack hlt, Exn.andThen_ok, ht']
  · rw [h.newPos] at hshape
    rw [Queue.step, leaves_append O s hroom]
    exact hshape
  · rw [Queue.step, List.length_append, List.length_singleton]
    omega
  · rw [hpos, List.reverse_cons, h.posList, h.newPos, Queue.step, Queue.ids_append]
  · rw [hnext, h.newPos, Nat.mod_add_mod, Queue.step, List.length_append, List.length_singleton, Nat.add_assoc]

theorem Holds.update {n : Nat} {l : List (Stack F)} {s : Stack F} (h : Holds O depth ⟨n, l ++ [s]⟩ t) (s' : Stack F) :
    ∃ t', updateCoinbaseStack O depth t s' false = .ok t' ∧ Holds O depth ⟨n, l ++ [s']⟩ t' := by
  have hroom := h.room
  rw [List.length_append, List.length_singleton] at hroom
  have hlt : position depth (n + l.length) < 2 ^ depth := position_lt _
  obtain ⟨t', ht', hshape, hpos, hnext⟩ := h.shape.setStack hlt s'
  refine ⟨t', ?_, ?_, ?_, ?_, ?_⟩
  · rw [updateCoinbaseStack, updateStack, latestStackId, if_neg (by decide), h.head_posList, Option.getD_some,
      h.shape.index _ (Nat.mod_lt _ (Nat.two_pow_pos depth)), Exn.andThen_ok]
    exact (Exn.andThen_of_ok (h.shape.getStack hlt) _).trans ht'
  · rw [leaves_set_last O s s' hroom] at hshape
    exact hshape
  · rw [List.length_append, List.length_singleton]
    exact hroom
  · rw [hpos, h.posList, Queue.ids_append, Queue.ids_append]
  · rw [hnext, h.newPos, List.length_append, List.length_append, List.length_singleton, List.length_singleton]

theorem Holds.remove {n : Nat} {l : List (Stack F)} {s : Stack F} (h : Holds O depth ⟨n, s :: l⟩ t) :
    ∃ t', removeCoinbaseStack O depth t = .ok (s, t') ∧ Holds O depth ⟨n + 1, l⟩ t' := by
  have hroom := h.room
  rw [List.length_cons] at hroom
  have hlt : position depth n < 2 ^ depth := position_lt n
  have hget := h.shape.getStack hlt
  rw [leaves_head] at hget
  obtain ⟨t', ht', hshape, -, hnext⟩ := h.shape.setStack hlt (Stack.empty O)
  rw [leaves_tail O s hroom] at hshape
  have hids := h.posList
  rw [Queue.ids_cons] at hids
  refine ⟨{ t' with posList := (Queue.ids depth ⟨n + 1, l⟩).reverse }, ?_, ?_, ?_, ?_, ?_⟩
  · rw [removeCoinbaseStack, removeOldestStackId, hids, Exn.andThen_ok,
      h.shape.index _ (Nat.mod_lt _ (Nat.two_pow_pos depth)), Exn.andThen_ok]
    exact (Exn.andThen_of_ok hget _).trans (Exn.andThen_of_ok ht' _)
  · exact ⟨hshape.depth_eq, hshape.tree, hshape.index⟩
  · exact Nat.le_of_lt hroom
  · rw [List.reverse_reverse]
  · rw [hnext, h.newPos, List.length_cons, Nat.add_assoc, Nat.add_comm 1]

/-- The step lemma: an operation answers as the queue does, and leaves the
collection in step with it. -/
theorem Holds.step (h : Holds O depth q t) {op : Op F} (hop : q.Allowed depth op) :
    (step O depth t op).1 = q.answer op ∧ Holds O depth (q.step op) (step O depth t op).2 := by
  cases op with
  | push s =>
    obtain ⟨t', ht', h'⟩ := h.push hop s
    rw [step_of_exec O depth t' none (by rw [Op.exec, ht']; rfl)]
    exact ⟨rfl, h'⟩
  | update s =>
    obtain ⟨n, l⟩ := q
    have hl : l ≠ [] := hop
    rw [← List.dropLast_concat_getLast hl] at h
    obtain ⟨t', ht', h'⟩ := h.update s
    rw [step_of_exec O depth t' none (by rw [Op.exec, ht']; rfl)]
    exact ⟨rfl, h'⟩
  | remove =>
    obtain ⟨n, l⟩ := q
    cases l with
    | nil =>
      have hnil : t.posList.reverse = [] := h.posList
      have hexec : Op.exec O depth t .remove = .error "No coinbase stack-with-state-hash to pop" := by
        rw [Op.exec, removeCoinbaseStack, removeOldestStackId, hnil]
        rfl
      rw [PendingCoinbase.step, hexec]
      exact ⟨rfl, h⟩
    | cons s l =>
      obtain ⟨t', ht', h'⟩ := h.remove
      rw [step_of_exec O depth t' (some s) (by rw [Op.exec, ht']; rfl)]
      refine ⟨rfl, ?_⟩
      rw [Queue.step, List.length_cons, Nat.min_eq_left (by omega), List.tail_cons]
      exact h'

/-- The run lemma. -/
theorem Holds.run (ops : List (Op F)) : ∀ {q : Queue F} {t : T F}, Holds O depth q t → q.AllAllowed depth ops →
    answers O depth t ops = q.answers ops ∧ Holds O depth (q.run ops) (run O depth t ops) := by
  induction ops with
  | nil => exact fun h _ => ⟨rfl, h⟩
  | cons op ops ih =>
    intro q t h hall
    obtain ⟨hop, hops⟩ := hall
    obtain ⟨hanswer, hstep⟩ := h.step hop
    obtain ⟨hanswers, hrun⟩ := ih hstep hops
    refine ⟨?_, hrun⟩
    rw [answers, Queue.answers, hanswer, hanswers]

/-! ## What the collection shows -/

variable (O depth)

/-- The collection `t`, created as `t₀`, shows the queue `q`. -/
structure Shows (t₀ : T F) (q : Queue F) (t : T F) : Prop where
  newest : ∀ s, q.pending.getLast? = some s → latestStack t false = .ok s
  oldest : ∀ s, q.pending.head? = some s → oldestStack t = .ok s
  /-- The leaves that the ids of the pending stacks lead to, the oldest first. -/
  positions : t.posList.reverse.map (findIndex t) =
    (List.range q.pending.length).map fun i => .ok (position depth (q.removed + i))
  root : merkleRoot O t = stackRoot O depth (leaves O depth q.removed q.pending)
  drained : q.pending = [] → merkleRoot O t = merkleRoot O t₀

variable {O depth}

theorem Holds.shows {t₀ : T F} (h₀ : Shape O depth (fun _ => Stack.empty O) t₀) (h : Holds O depth q t) :
    Shows O depth t₀ q t := by
  obtain ⟨n, l⟩ := q
  have hpos := Nat.two_pow_pos depth
  refine ⟨fun s hs => ?_, fun s hs => ?_, ?_, h.shape.merkleRoot, fun hnil => ?_⟩
  · obtain ⟨l', rfl⟩ := List.getLast?_eq_some_iff.1 hs
    have hroom := h.room
    rw [List.length_append, List.length_singleton] at hroom
    have hget := h.shape.getStack (position_lt (n + l'.length))
    rw [leaves_last O s hroom] at hget
    rw [latestStack, latestStackId, if_neg (by decide), h.head_posList, Option.getD_some,
      h.shape.index _ (Nat.mod_lt _ hpos), Exn.andThen_ok]
    exact Exn.andThen_of_ok hget _
  · obtain ⟨l', rfl⟩ := List.head?_eq_some_iff.1 hs
    have hget := h.shape.getStack (position_lt n)
    rw [leaves_head] at hget
    rw [oldestStack, oldestStackId, h.last_posList, Option.getD_some, h.shape.index _ (Nat.mod_lt _ hpos),
      Exn.andThen_ok]
    exact hget
  · rw [h.posList, Queue.ids, List.map_map]
    refine List.map_congr_left fun i _ => ?_
    exact h.shape.index _ (Nat.mod_lt _ hpos)
  · obtain rfl : l = [] := hnil
    rw [h.shape.merkleRoot, h₀.merkleRoot]
    rfl

/-- **The pending coinbases are a queue**: from creation on, as long as a
stack is only added when one of the `2 ^ depth` places is free and only
updated when one is pending, every operation answers as the queue does (a
removal gives the oldest stack with its last contents; only a removal from
the empty queue is an error), and the collection shows the queue: its newest
and oldest stack, and the root of the tree with the pending stacks at their
leaves and empty ones elsewhere. -/
theorem fifo [DecidableEq F] (O : RandomOracle F) (depth : Nat) (ops : List (Op F))
    (hallowed : Queue.AllAllowed depth ⟨0, []⟩ ops) :
    ∃ t₀, create O depth = .ok t₀ ∧ answers O depth t₀ ops = Queue.answers ⟨0, []⟩ ops ∧
      Shows O depth t₀ (Queue.run ⟨0, []⟩ ops) (run O depth t₀ ops) := by
  obtain ⟨t₀, hcreate, hshape, hpos, hnew⟩ := create_ok O depth
  have h₀ : Holds O depth ⟨0, []⟩ t₀ := by
    refine ⟨hshape, Nat.zero_le _, ?_, ?_⟩
    · rw [hpos]
      rfl
    · rw [hnew]
      exact (Nat.zero_mod _).symm
  obtain ⟨hanswers, hrun⟩ := Holds.run ops h₀ hallowed
  exact ⟨t₀, hcreate, hanswers, hrun.shows hshape⟩

/-- A random oracle over the numbers. -/
def numberOracle : RandomOracle Nat where
  coinbaseMerkleTree height h1 h2 := Nat.pair height.toNat (Nat.pair h1 h2)
  stackHash data init curr := Nat.pair data (Nat.pair init curr)
  coinbasePush receiver amount stack := Nat.pair receiver.x (Nat.pair amount.val stack)
  protocolState curr stateBodyHash := Nat.pair curr stateBodyHash
  coinbaseStackSalt := 0
  outsideHashImage := 1

/-- Three stacks go round the two places of a tree of depth one. -/
def roundOps : List (Op Nat) :=
  [.push ⟨2, ⟨1, 2⟩⟩, .push ⟨3, ⟨2, 3⟩⟩, .remove, .push ⟨4, ⟨3, 4⟩⟩, .update ⟨5, ⟨3, 4⟩⟩, .remove, .remove, .remove]

theorem fifo_round :
    ∃ t₀, create numberOracle 1 = .ok t₀ ∧
      answers numberOracle 1 t₀ roundOps = Queue.answers ⟨0, []⟩ roundOps ∧
      Shows numberOracle 1 t₀ (Queue.run ⟨0, []⟩ roundOps) (run numberOracle 1 t₀ roundOps) := by
  refine fifo numberOracle 1 roundOps ?_
  simp [roundOps, Queue.AllAllowed, Queue.Allowed, Queue.step]

end Mina.PendingCoinbase
