import CloneDetection.Fingerprint.Hash

/-!
# Winnowing

Of every window of consecutive hashes the least is selected, the rightmost of several equal ones. The
scan keeps a queue of the hashes of the current window that may still be selected: newest first,
strictly smaller towards the oldest, which is the one to select.
-/

namespace CloneDetection.Fingerprint

/-- The queue after one more hash: larger and equal ones give way to it, and those that left the
window are dropped. -/
def enqueue (window start : Nat) (hash : UInt64) (queue : List (Nat × UInt64)) :
    List (Nat × UInt64) :=
  (start, hash) ::
    (queue.dropWhile fun entry => hash ≤ entry.2).takeWhile fun entry => start < entry.1 + window

/-- Adds the hash to select unless it was the last one selected. -/
def select (entry : Nat × UInt64) (selected : List (UInt64 × Nat)) : List (UInt64 × Nat) :=
  match selected with
  | [] => [(entry.2, entry.1)]
  | (hash, start) :: rest =>
    if start = entry.1 then (hash, start) :: rest else (entry.2, entry.1) :: (hash, start) :: rest

/-- The selected hashes of the rest of a list that continues at `start`, after those selected so far,
the last one first. -/
def winnowFrom (window start : Nat) (queue : List (Nat × UInt64)) (selected : List (UInt64 × Nat)) :
    List UInt64 → List (UInt64 × Nat)
  | [] => selected.reverse
  | hash :: rest =>
    let queue := enqueue window start hash queue
    let selected :=
      if window ≤ start + 1 then
        match queue.getLast? with
        | some entry => select entry selected
        | none => selected
      else selected
    winnowFrom window (start + 1) queue selected rest

/-- The least hash of every full window, with its position, in the order of positions. -/
def winnow (window : Nat) (hashes : List UInt64) : List (UInt64 × Nat) :=
  winnowFrom window 0 [] [] hashes

/-- The selected hashes of the runs of `k` symbols, with the positions of the runs. -/
def fingerprints (symbols : List Nat) (k window : Nat) : List (UInt64 × Nat) :=
  if k = 0 ∨ window = 0 then [] else winnow window (gramHashes k symbols)

end CloneDetection.Fingerprint
