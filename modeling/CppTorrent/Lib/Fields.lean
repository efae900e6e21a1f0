import CppTorrent.Lib.ByteFile

/-! # Records with fields at fixed positions

A record is a byte array into which fields are written at positions of their own. If the fields lie apart
from each other inside the array, every field can be read back after all of them have been written, in
whatever order (`bytes_writeFields`), and what lies apart from them stays as it was
(`bytes_writeFields_of_apart`). -/

namespace CppTorrent.Lib.Fields

open CppTorrent.Lib.ByteFile

/-- Bytes and the position they are written to. -/
structure Field where
  pos : ℕ
  bytes : List UInt8

/-- Where a field is written. -/
def Field.window (f : Field) : Window := ⟨f.pos, f.bytes.length⟩

/-- One of the windows ends before the other one starts. -/
def Apart (v w : Window) : Prop := v.start + v.size ≤ w.start ∨ w.start + w.size ≤ v.start

instance (v w : Window) : Decidable (Apart v w) := inferInstanceAs (Decidable (_ ∨ _))

/-- The window lies inside an array of `n` bytes. -/
def Inside (n : ℕ) (w : Window) : Prop := w.start + w.size ≤ n

instance (n : ℕ) (w : Window) : Decidable (Inside n w) := inferInstanceAs (Decidable (_ ≤ _))

/-- Writes the fields one after the other. -/
def writeFields (fields : List Field) (record : List UInt8) : List UInt8 :=
  fields.foldl (fun record f => writeAt f.pos f.bytes record) record

theorem Apart.symm {v w : Window} (h : Apart v w) : Apart w v := Or.symm h

theorem length_writeAt_inside {f : Field} {record : List UInt8} (h : Inside record.length f.window) :
    (writeAt f.pos f.bytes record).length = record.length := by
  by_cases hne : f.bytes = []
  · rw [hne, writeAt_nil]
  · rw [length_writeAt _ _ hne]
    exact max_eq_left h

theorem length_writeFields : ∀ {fields : List Field} {record : List UInt8},
    (∀ f ∈ fields, Inside record.length f.window) →
    (writeFields fields record).length = record.length
  | [], _, _ => rfl
  | f :: fields, record, hin => by
    have hlen := length_writeAt_inside (hin f List.mem_cons_self)
    have hin' : ∀ g ∈ fields, Inside (writeAt f.pos f.bytes record).length g.window :=
      fun g hg => hlen ▸ hin g (List.mem_cons_of_mem f hg)
    exact (length_writeFields hin').trans hlen

/-- **What lies apart from all fields stays as it was.** -/
theorem bytes_writeFields_of_apart {w : Window} : ∀ {fields : List Field} {record : List UInt8},
    (∀ f ∈ fields, Inside record.length f.window) → Inside record.length w →
    (∀ f ∈ fields, Apart f.window w) → w.bytes (writeFields fields record) = w.bytes record
  | [], _, _, _, _ => rfl
  | f :: fields, record, hin, hw, hapart => by
    have hlen := length_writeAt_inside (hin f List.mem_cons_self)
    have hin' : ∀ g ∈ fields, Inside (writeAt f.pos f.bytes record).length g.window :=
      fun g hg => hlen ▸ hin g (List.mem_cons_of_mem f hg)
    have hrest := bytes_writeFields_of_apart hin' (hlen ▸ hw) fun g hg =>
      hapart g (List.mem_cons_of_mem f hg)
    exact hrest.trans (bytes_writeAt_of_apart hw (hapart f List.mem_cons_self).symm)

/-- **Every field can be read back**, if the fields lie apart from each other. -/
theorem bytes_writeFields : ∀ {fields : List Field} {record : List UInt8},
    (∀ f ∈ fields, Inside record.length f.window) →
    fields.Pairwise (fun f g => Apart f.window g.window) →
    ∀ f ∈ fields, f.window.bytes (writeFields fields record) = f.bytes
  | f :: fields, record, hin, hpair, g, hg => by
    have hlen := length_writeAt_inside (hin f List.mem_cons_self)
    obtain ⟨hfirst, hpair⟩ := List.pairwise_cons.mp hpair
    have hin' : ∀ g ∈ fields, Inside (writeAt f.pos f.bytes record).length g.window :=
      fun g hg => hlen ▸ hin g (List.mem_cons_of_mem f hg)
    rcases List.mem_cons.mp hg with rfl | hg
    · refine (bytes_writeFields_of_apart hin' (hlen ▸ hin g List.mem_cons_self) fun f hf =>
        (hfirst f hf).symm).trans ?_
      exact bytes_writeAt_self g.pos g.bytes record
    · exact bytes_writeFields hin' hpair g hg

/-- A window inside the front of an array. -/
theorem bytes_take {w : Window} {n : ℕ} (h : Inside n w) (record : List UInt8) :
    w.bytes (record.take n) = w.bytes record := by
  unfold Inside at h
  refine List.ext_getElem? fun i => ?_
  rw [Window.getElem?_bytes, Window.getElem?_bytes, List.getElem?_take]
  split_ifs
  · rfl
  · omega
  · rfl

end CppTorrent.Lib.Fields
