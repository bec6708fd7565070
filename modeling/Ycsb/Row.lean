import Ycsb.Lib.Assoc
import Ycsb.Lib.Reader

/-!
# Rows and their encodings

A row is stored as its fields one after the other, each as a framed name and a
framed value. `RocksdbDB` appends to a string, `RocksdbCli` writes at an offset
of a message buffer; both decode by the same loop.
-/

namespace Ycsb

open Lib

abbrev Field := Bytes × Bytes

abbrev Row := List Field

/-- The four reads of the decoding loops: length and name, length and value. -/
def readField (mem : Bytes) (p : ℕ) : Except Fault (Field × ℕ) := do
  let (field, p) ← readFrame mem p
  let (value, p) ← readFrame mem p
  return ((field, value), p)

def encodeField (f : Field) : Bytes := frame f.1 ++ frame f.2

theorem readField_ok {mem : Bytes} {p q : ℕ} {f : Field} (h : readField mem p = .ok (f, q)) :
    mem.drop p = encodeField f ++ mem.drop q ∧ f.1.length < 2 ^ 32 ∧ f.2.length < 2 ^ 32 ∧ p < q ∧
      q ≤ mem.length := by
  unfold readField at h
  obtain ⟨⟨name, p'⟩, h1, h⟩ := bind_ok.mp h
  obtain ⟨⟨value, q'⟩, h2, h⟩ := bind_ok.mp h
  cases h
  obtain ⟨hd, hn, hp, _⟩ := readFrame_ok h1
  obtain ⟨hd', hv, hq, hle⟩ := readFrame_ok h2
  refine ⟨by rw [hd, hd', encodeField, List.append_assoc], hn, hv, ?_, hle⟩
  rw [hq, hp, frame_length]
  omega

def fieldItem (mem : Bytes) : Item Field where
  read := readField mem
  advance h := (readField_ok h).2.2.2.1

/-! ## RocksdbDB -/

namespace RocksdbDB

def serializeRow (values : Row) (data : Bytes) : Bytes :=
  values.foldl (fun data field =>
    data ++ le32 field.1.length ++ field.1 ++ le32 field.2.length ++ field.2) data

/-- The decoded fields are appended to `values`; the pointer at the end. -/
def deserializeRowAt (values : Row) (mem : Bytes) (p lim : ℕ) : Except Fault (Row × ℕ) :=
  readWhile (fieldItem mem) lim (fun _ => true) (fun values f => values ++ [f]) p values

def deserializeRow (values : Row) (data : Bytes) : Except Fault (Row × ℕ) :=
  deserializeRowAt values data 0 data.length

/-- One turn of the filtering loop: the values found, and the names still wanted. -/
def filterStep (s : Row × List Bytes) (f : Field) : Row × List Bytes :=
  match s.2 with
  | [] => s
  | name :: rest => if name = f.1 then (s.1 ++ [f], rest) else s

def deserializeRowFilterAt (values : Row) (mem : Bytes) (p lim : ℕ) (fields : List Bytes) :
    Except Fault Row := do
  let (s, _) ← readWhile (fieldItem mem) lim (fun s => !s.2.isEmpty) filterStep p (values, fields)
  if s.1.length = fields.length then return s.1 else throw .assertion

def deserializeRowFilter (values : Row) (data : Bytes) (fields : List Bytes) : Except Fault Row :=
  deserializeRowFilterAt values data 0 data.length fields

end RocksdbDB

/-! ## RocksdbCli -/

namespace RocksdbCli

/-- The four `memcpy`s of one field, at `data + offset` with `data = buf + base`. -/
def writeField (base : ℕ) (s : Bytes × ℕ) (field : Field) : Except Fault (Bytes × ℕ) := do
  let (buf, offset) := s
  let buf ← write buf (base + offset) (le32 field.1.length)
  let offset := offset + 4
  let buf ← write buf (base + offset) field.1
  let offset := offset + field.1.length
  let buf ← write buf (base + offset) (le32 field.2.length)
  let offset := offset + 4
  let buf ← write buf (base + offset) field.2
  let offset := offset + field.2.length
  return (buf, offset)

/-- The buffer with the row at `base`, and the size of the row. -/
def serializeRow (values : Row) (buf : Bytes) (base : ℕ) : Except Fault (Bytes × ℕ) :=
  values.foldlM (writeField base) (buf, 0)

def deserializeRow (values : Row) (mem : Bytes) (p lim : ℕ) : Except Fault (Row × ℕ) :=
  readWhile (fieldItem mem) lim (fun _ => true) (fun values f => values ++ [f]) p values

end RocksdbCli

end Ycsb
