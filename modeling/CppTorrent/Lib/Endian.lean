import CppTorrent.Lib.BigEndian

/-! # Numbers in memory

A machine stores an unsigned number with its least or its most significant byte first (`Host`).
`toMemory` and `ofMemory` are the two directions, `swap` reads the bytes of a number in the other
order. A number that is swapped on the machines of the one kind only has the same bytes in the memory
of every machine: big-endian ones if the little-endian machines swap (`toMemory_swapIfLittle`),
little-endian ones if the others do (`toMemory_swapIfBig`). Bytes that are read from memory and swapped
in this way are the number they denote in that order (`swapIfLittle_ofMemory`,
`swapIfBig_ofMemory`). -/

namespace CppTorrent.Lib.Endian

open CppTorrent.Lib.BigEndian

/-- The byte order of a machine. -/
inductive Host where
  | littleEndian
  | bigEndian
  deriving DecidableEq

/-- The bytes of a number of `k` bytes in memory. -/
def toMemory (host : Host) (k n : ℕ) : List UInt8 :=
  match host with
  | .littleEndian => (bytesBE k n).reverse
  | .bigEndian => bytesBE k n

/-- The number some bytes in memory stand for. -/
def ofMemory (host : Host) (bytes : List UInt8) : ℕ :=
  match host with
  | .littleEndian => numberBE bytes.reverse
  | .bigEndian => numberBE bytes

/-- A number of `k` bytes with its bytes in memory reversed. -/
def swap (host : Host) (k n : ℕ) : ℕ := ofMemory host (toMemory host k n).reverse

/-- Swaps a number where the machine is little-endian. -/
def swapIfLittle (host : Host) (k n : ℕ) : ℕ :=
  match host with
  | .littleEndian => swap host k n
  | .bigEndian => n

/-- Swaps a number where the machine is big-endian. -/
def swapIfBig (host : Host) (k n : ℕ) : ℕ :=
  match host with
  | .littleEndian => n
  | .bigEndian => swap host k n

@[simp] theorem length_toMemory (host : Host) (k n : ℕ) : (toMemory host k n).length = k := by
  cases host <;> simp [toMemory]

/-- The number some bytes stand for has these bytes. -/
theorem toMemory_ofMemory (host : Host) {k : ℕ} {bytes : List UInt8} (h : bytes.length = k) :
    toMemory host k (ofMemory host bytes) = bytes := by
  subst h
  rcases host with _ | _
  · show (bytesBE bytes.length (numberBE bytes.reverse)).reverse = bytes
    rw [← List.length_reverse, bytesBE_numberBE, List.reverse_reverse]
  · exact bytesBE_numberBE bytes

/-- And the bytes of a number stand for it. -/
theorem ofMemory_toMemory (host : Host) {k n : ℕ} (h : n < 256 ^ k) :
    ofMemory host (toMemory host k n) = n := by
  rcases host with _ | _
  · show numberBE (bytesBE k n).reverse.reverse = n
    rw [List.reverse_reverse, numberBE_bytesBE h]
  · exact numberBE_bytesBE h

/-- Swapping reverses the bytes in memory. -/
theorem toMemory_swap (host : Host) (k n : ℕ) :
    toMemory host k (swap host k n) = (toMemory host k n).reverse :=
  toMemory_ofMemory host (by simp)

/-- And bytes in memory are swapped by reading them in the other order. -/
theorem swap_ofMemory (host : Host) {k : ℕ} {bytes : List UInt8} (h : bytes.length = k) :
    swap host k (ofMemory host bytes) = ofMemory host bytes.reverse := by
  unfold swap
  rw [toMemory_ofMemory host h]

/-- **Where the little-endian machines swap, the bytes in memory are big-endian.** -/
theorem toMemory_swapIfLittle (host : Host) (k n : ℕ) :
    toMemory host k (swapIfLittle host k n) = bytesBE k n := by
  rcases host with _ | _
  · exact (toMemory_swap .littleEndian k n).trans (List.reverse_reverse _)
  · rfl

/-- Where the big-endian machines swap, they are little-endian. -/
theorem toMemory_swapIfBig (host : Host) (k n : ℕ) :
    toMemory host k (swapIfBig host k n) = (bytesBE k n).reverse := by
  rcases host with _ | _
  · rfl
  · exact toMemory_swap .bigEndian k n

/-- **Big-endian bytes read from memory and swapped are the number they denote.** -/
theorem swapIfLittle_ofMemory (host : Host) {k : ℕ} {bytes : List UInt8} (h : bytes.length = k) :
    swapIfLittle host k (ofMemory host bytes) = numberBE bytes := by
  rcases host with _ | _
  · refine (swap_ofMemory .littleEndian h).trans ?_
    show numberBE bytes.reverse.reverse = numberBE bytes
    rw [List.reverse_reverse]
  · rfl

/-- And so are little-endian ones. -/
theorem swapIfBig_ofMemory (host : Host) {k : ℕ} {bytes : List UInt8} (h : bytes.length = k) :
    swapIfBig host k (ofMemory host bytes) = numberBE bytes.reverse := by
  rcases host with _ | _
  · rfl
  · exact swap_ofMemory .bigEndian h

/-- A number that is swapped twice is the same. -/
theorem swapIfLittle_swapIfLittle (host : Host) {k n : ℕ} (h : n < 256 ^ k) :
    swapIfLittle host k (swapIfLittle host k n) = n := by
  rcases host with _ | _
  · change ofMemory .littleEndian (toMemory .littleEndian k (swap .littleEndian k n)).reverse = n
    rw [toMemory_swap, List.reverse_reverse, ofMemory_toMemory .littleEndian h]
  · rfl

end CppTorrent.Lib.Endian
