import CallFill.Grammar.Source

/-! # Documents

A document is one snapshot of a file: its path, its version and its tree. Two trees may read
alike and still be different trees, so every tree carries a stamp, and a node found in one
tree is never taken for a node of another. -/

namespace CallFill

/-- A whole tree with the stamp that tells it from others. -/
structure Snapshot where
  root : Tree
  stamp : Nat
deriving DecidableEq

structure Document where
  path : String
  version : Nat
  snapshot : Snapshot
deriving DecidableEq

namespace Document

def ofRoot (path : String) (root : Tree) (stamp : Nat) : Document := ⟨path, 0, ⟨root, stamp⟩⟩

/-- Reads a source text into a document at version zero. -/
def read (path source : String) (stamp : Nat) : Except Grammar.SyntaxError Document :=
  match Grammar.document source with
  | .error e => .error e
  | .ok root => .ok (ofRoot path root stamp)

def root (d : Document) : Tree := d.snapshot.root

def text (d : Document) : String := d.root.whole

/-- The next version of a document, with another tree. -/
def next (d : Document) (s : Snapshot) : Document := ⟨d.path, d.version + 1, s⟩

@[simp] theorem next_snapshot (d : Document) (s : Snapshot) : (d.next s).snapshot = s := rfl

end Document

end CallFill
