/-
The stacks of `mina_base/pending_coinbase.ml`: a stack of coinbases and a
stack of protocol state body hashes, both given by a hash that every push
goes into.

The random oracle is a parameter: a function for every hash that is taken,
over the field elements `F`.
-/
import Mina.Base.UserCommand
import Mina.Base.Currency

namespace Mina.PendingCoinbase

structure RandomOracle (F : Type) where
  /-- With the prefix `coinbase_merkle_tree height`, of the hashes of two subtrees. -/
  coinbaseMerkleTree : Int → F → F → F
  /-- With the prefix `coinbase_stack`, of a stack: its data, and the `init` and `curr` of its state. -/
  stackHash : F → F → F → F
  /-- With the prefix `coinbase_stack`, of a coinbase and the stack it is pushed on. -/
  coinbasePush : PublicKey → Amount → F → F
  /-- With the prefix `protocol_state`, of a state stack and a state body hash. -/
  protocolState : F → F → F
  /-- The digest of the salt `CoinbaseStack`. -/
  coinbaseStackSalt : F
  outsideHashImage : F

structure StateStack (F : Type) where
  init : F
  curr : F
deriving DecidableEq

structure Stack (F : Type) where
  data : F
  state : StateStack F
deriving DecidableEq

variable {F : Type} (O : RandomOracle F)

namespace StateStack

def push (t : StateStack F) (stateBodyHash : F) : StateStack F :=
  { t with curr := O.protocolState t.curr stateBodyHash }

def empty : StateStack F := { init := O.outsideHashImage, curr := O.outsideHashImage }

def create (init : F) : StateStack F := { init, curr := init }

end StateStack

namespace Stack

def dataHash (t : Stack F) : F := O.stackHash t.data t.state.init t.state.curr

def empty : Stack F := { data := O.coinbaseStackSalt, state := StateStack.empty O }

def createWith (t : Stack F) : Stack F := { empty O with state := StateStack.create t.state.curr }

/-- A coinbase is its receiver and its amount here, as in `Coinbase_data`. -/
def pushCoinbase (receiver : PublicKey) (amount : Amount) (t : Stack F) : Stack F :=
  { t with data := O.coinbasePush receiver amount t.data }

def pushState (stateBodyHash : F) (t : Stack F) : Stack F :=
  { t with state := t.state.push O stateBodyHash }

end Stack

end Mina.PendingCoinbase
