import CppTorrent.Wire.Message

/-! # Values in a message

A `ReceivingMessage` is a view of bytes with a cursor, `ReceivingPeerMessage` one that also knows the
size of its body (`get_base`). Values of different widths that are appended to a `SendingMessage` are
read from the message it makes in the same widths and the same order, on whatever machine the two
sides are (`readAll_writeAll`): the step lemma is `ReceivingMessage.get_encoded`, the induction is on
the values.

A value is the number that its bytes stand for, so a signed value is taken modulo `256 ^ k`. -/

namespace CppTorrent.Wire.TypedIo

open CppTorrent.Lib.BigEndian CppTorrent.Lib.Endian CppTorrent.Wire.Message

/-- `bittorrent::ReceivingMessage`. -/
structure ReceivingMessage where
  order : ByteOrder
  arr : List UInt8
  inpPos : ℕ

/-- `ReceivingMessage::CopyTo`; `none` if it reads behind the end. -/
def ReceivingMessage.copyTo (size : ℕ) (msg : ReceivingMessage) :
    Option (List UInt8 × ReceivingMessage) :=
  if msg.inpPos + size ≤ msg.arr.length then
    some ((msg.arr.drop msg.inpPos).take size, { msg with inpPos := msg.inpPos + size })
  else none

/-- `ReceivingMessage::operator>>`, for a type of `k` bytes. -/
def ReceivingMessage.get (host : Host) (k : ℕ) (msg : ReceivingMessage) :
    Option (ℕ × ReceivingMessage) :=
  (msg.copyTo k).map fun (bytes, msg) =>
    match msg.order with
    | .bigEndian => (bigToNative host k (arrayToValue host bytes), msg)
    | .littleEndian => (littleToNative host k (arrayToValue host bytes), msg)

/-- A `ReceivingPeerMessage` as the message it derives from. -/
def base (msg : ReceivingPeerMessage) : ReceivingMessage := ⟨msg.order, msg.arr, msg.inpPos⟩

/-- `operator>>` is inherited. -/
theorem get_base (host : Host) (k : ℕ) (msg : ReceivingPeerMessage) :
    (base msg).get host k = (msg.get host k).map fun (value, msg) => (value, base msg) := by
  obtain ⟨order, arr, inpPos, bodySize⟩ := msg
  by_cases h : inpPos + k ≤ arr.length
  · cases order <;>
      simp [ReceivingMessage.get, ReceivingPeerMessage.get, ReceivingMessage.copyTo,
        ReceivingPeerMessage.copyTo, base, h]
  · simp [ReceivingMessage.get, ReceivingPeerMessage.get, ReceivingMessage.copyTo,
      ReceivingPeerMessage.copyTo, base, h]

/-- `SendingMessage::MakeReading`. -/
def makeReading (msg : SendingMessage) : ReceivingMessage := ⟨msg.order, msg.data, 0⟩

/-! ### Sequences of values -/

/-- The widths of the integer types. -/
inductive Width where
  | one
  | two
  | four
  | eight
  deriving DecidableEq

/-- The size of a type. -/
def Width.bytes : Width → ℕ
  | .one => 1
  | .two => 2
  | .four => 4
  | .eight => 8

/-- A value of an integer type. -/
structure Value where
  width : Width
  number : ℕ
  /-- the number has that many bytes -/
  small : number < 256 ^ width.bytes

/-- The bytes of a value in a byte order. -/
def Value.encoded (order : ByteOrder) (v : Value) : List UInt8 :=
  Message.encoded order v.width.bytes v.number

/-- Appends the values. -/
def writeAll (host : Host) (values : List Value) (msg : SendingMessage) : SendingMessage :=
  values.foldl (fun msg v => msg.put host v.width.bytes v.number) msg

/-- Reads values of some widths. -/
def readAll (host : Host) : List Width → ReceivingMessage → Option (List ℕ × ReceivingMessage)
  | [], msg => some ([], msg)
  | w :: ws, msg => do
    let (value, msg) ← msg.get host w.bytes
    let (values, msg) ← readAll host ws msg
    return (value :: values, msg)

theorem Value.length_encoded (order : ByteOrder) (v : Value) :
    (v.encoded order).length = v.width.bytes := Message.length_encoded _ _ _

/-- The values are appended one after the other; the machine does not matter. -/
theorem writeAll_eq (host : Host) : ∀ (values : List Value) (msg : SendingMessage),
    writeAll host values msg = ⟨msg.order, msg.data ++ values.flatMap (Value.encoded msg.order)⟩
  | [], msg => by simp [writeAll]
  | v :: values, msg => by
    have ih := writeAll_eq host values (msg.put host v.width.bytes v.number)
    rw [put_order, put_data] at ih
    rw [List.flatMap_cons, ← List.append_assoc]
    exact ih

/-- **A value at the cursor is read as that value.** -/
theorem ReceivingMessage.get_encoded (host : Host) (order : ByteOrder) (front back : List UInt8)
    (v : Value) :
    ReceivingMessage.get host v.width.bytes ⟨order, front ++ (v.encoded order ++ back), front.length⟩ =
      some (v.number, ⟨order, front ++ (v.encoded order ++ back), front.length + v.width.bytes⟩) := by
  have h := get_of_encoded host order front back 0 v.small
  have hbase := get_base host v.width.bytes
    ⟨order, front ++ (v.encoded order ++ back), front.length, 0⟩
  unfold Value.encoded at hbase ⊢
  rw [h] at hbase
  exact hbase

/-- Values at the cursor are read in their order. -/
theorem readAll_flatMap (host : Host) (order : ByteOrder) (back : List UInt8) :
    ∀ (values : List Value) (front : List UInt8),
      readAll host (values.map Value.width)
          ⟨order, front ++ (values.flatMap (Value.encoded order) ++ back), front.length⟩ =
        some (values.map Value.number,
          ⟨order, front ++ (values.flatMap (Value.encoded order) ++ back),
            front.length + (values.flatMap (Value.encoded order)).length⟩)
  | [], front => rfl
  | v :: values, front => by
    have ih := readAll_flatMap host order back values (front ++ v.encoded order)
    have hget := ReceivingMessage.get_encoded host order front
      (values.flatMap (Value.encoded order) ++ back) v
    rw [List.length_append, Value.length_encoded, List.append_assoc] at ih
    rw [List.map_cons, List.map_cons, List.flatMap_cons, List.append_assoc, readAll, hget]
    simp only [Option.bind_eq_bind, Option.bind_some]
    rw [ih, List.length_append, Value.length_encoded, ← Nat.add_assoc]
    rfl

/-- **Values go through a message unchanged**, in either byte order and between any two machines. The
bytes of the message depend on the values and the byte order only, and the cursor is left at the bytes
that follow them. -/
theorem readAll_writeAll (sender receiver : Host) (order : ByteOrder) (values : List Value)
    (raw : List UInt8) :
    let msg := (writeAll sender values ⟨order, []⟩).copyFrom raw
    msg.data = values.flatMap (Value.encoded order) ++ raw ∧
      ∃ reading, readAll receiver (values.map Value.width) (makeReading msg) =
          some (values.map Value.number, reading) ∧
        reading.arr = msg.data ∧ reading.inpPos = (values.map fun v => v.width.bytes).sum ∧
        reading.arr.drop reading.inpPos = raw := by
  have hmsg : (writeAll sender values ⟨order, []⟩).copyFrom raw =
      ⟨order, values.flatMap (Value.encoded order) ++ raw⟩ := by
    rw [writeAll_eq]
    rfl
  have hlen : (values.flatMap (Value.encoded order)).length =
      (values.map fun v => v.width.bytes).sum := by
    rw [List.length_flatMap]
    exact congrArg List.sum (List.map_congr_left fun v _ => v.length_encoded order)
  dsimp only
  rw [hmsg]
  refine ⟨rfl, ⟨order, values.flatMap (Value.encoded order) ++ raw,
    (values.flatMap (Value.encoded order)).length⟩, ?_, rfl, hlen, List.drop_left⟩
  have hread := readAll_flatMap receiver order raw values []
  rw [List.nil_append, List.length_nil, Nat.zero_add] at hread
  exact hread

/-- From a little-endian machine to a big-endian one. -/
example : (readAll .bigEndian [.two, .one] (makeReading
    ((writeAll .littleEndian [⟨.two, 258, by decide⟩, ⟨.one, 7, by decide⟩] ⟨.bigEndian, []⟩).copyFrom
      [9]))).map Prod.fst = some [258, 7] := by decide

end CppTorrent.Wire.TypedIo
