import Clustering.Failure

/-!
# Memory

Which requests for memory are granted.  A request is a count of elements of some width; whether it
is granted depends on nothing else.  Element counts are 64-bit words, so the size of a matrix is its
row count times its column count, wrapped.

The buffers that an algorithm fills report a refusal as a failure that names the buffer; storage
that a caller keeps reports the bare cause, and so does storage that grows with what is put into it
(`Memory.grow`).
-/

namespace Clustering

/-- A size as a 64-bit word. -/
def sizeWord (n : Nat) : Nat := n % 0x1_0000_0000_0000_0000

/-- The largest valid index of a sequence, as a word: an empty sequence gives the largest word. -/
def lastIndex (n : Nat) : Nat := sizeWord (n + (0x1_0000_0000_0000_0000 - 1))

/-- How many elements of `width` bytes lie between two ends of storage that are `count` elements
apart.  The ends are byte addresses, and the distance of two addresses is a signed word: of a count
that does not fit only a remainder is left, and a remainder that is negative reads as a count that
no sequence has. -/
def spanWord (width count : Nat) : Nat :=
  let bytes := sizeWord (count * width)
  if bytes < 0x8000_0000_0000_0000 then bytes / width
  else 0x1_0000_0000_0000_0000 - (0x1_0000_0000_0000_0000 - bytes) / width

theorem spanWord_eq {width count : Nat} (hw : 0 < width)
    (h : count * width < 0x8000_0000_0000_0000) : spanWord width count = count := by
  have hb : sizeWord (count * width) = count * width := Nat.mod_eq_of_lt (by omega)
  rw [spanWord, hb, if_pos h, Nat.mul_div_cancel _ hw]

/-- Why a request for memory is refused. -/
inductive Refusal where
  /-- No sequence can have so many elements. -/
  | overlong
  /-- There is not so much memory. -/
  | exhausted
deriving DecidableEq

/-- The memory that buffers are taken from. -/
class Memory where
  /-- The refusal of `count` elements of `width` bytes each, or `none` if they are granted. -/
  refuse : (width count : Nat) → Option Refusal

/-- A sequence has fewer than `2 ^ 63` bytes, and a request for `2 ^ 50` bytes or more exhausts the
memory. -/
instance : Memory where
  refuse width count :=
    if (0x8000_0000_0000_0000 - 1) / width < count then some .overlong
    else if 0x4_0000_0000_0000 ≤ count * width then some .exhausted
    else none

namespace Memory

variable [Memory]

/-- A buffer that the message names as `what`. -/
def buffer (what : String) (width count : Nat) : Except Failure Unit :=
  match refuse width count with
  | none => .ok ()
  | some .overlong => .error (.bufferElements what count)
  | some .exhausted => .error (.bufferBytes what (count * width))

/-- Storage that is filled at once; `lacking` is the failure when memory is exhausted. -/
def storageOr (lacking : Failure) (width count : Nat) : Except Failure Unit :=
  match refuse width count with
  | none => .ok ()
  | some .overlong => .error .overlong
  | some .exhausted => .error lacking

/-- Storage that is filled at once. -/
def storage (width count : Nat) : Except Failure Unit := storageOr .outOfMemory width count

/-- Storage that is set aside to be filled later. -/
def reserve (width count : Nat) : Except Failure Unit :=
  match refuse width count with
  | none => .ok ()
  | some .overlong => .error .overlongReserve
  | some .exhausted => .error .outOfMemory

/-- One more element in storage that grows by doubling and has `held` already.  It is full when that
is zero or a power of two, and then moves to storage of twice the size, or of the largest size that
a sequence can have: whatever is refused is refused for lack of memory. -/
def grow (width held : Nat) : Except Failure Unit :=
  if held &&& (held - 1) = 0 ∧ (refuse width (max 1 (2 * held))).isSome then .error .outOfMemory
  else .ok ()

end Memory

end Clustering
