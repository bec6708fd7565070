import Ycsb.Row

/-!
# The row format

Encoding and decoding are inverse to each other: the decoder accepts exactly
the encodings of rows. The filtering loop is a greedy pass over the fields.
-/

namespace Ycsb

open Lib

def Sized (row : Row) : Prop := ∀ f ∈ row, f.1.length < 2 ^ 32 ∧ f.2.length < 2 ^ 32

theorem fieldItem_reads {mem : Bytes} {f : Field} (h1 : f.1.length < 2 ^ 32) (h2 : f.2.length < 2 ^ 32) :
    ReadsAt (fieldItem mem) encodeField mem f := by
  intro p t hd
  rw [encodeField, List.append_assoc] at hd
  change readField mem p = _
  rw [readField, readFrame_frame hd h1]
  simp only [bind, Except.bind, readFrame_frame (drop_after hd) h2, encodeField, List.length_append]
  rw [Nat.add_assoc]
  rfl

theorem foldl_snoc {α : Type} : ∀ (as bs : List α), as.foldl (fun l a => l ++ [a]) bs = bs ++ as
  | [], bs => (List.append_nil bs).symm
  | a :: as, bs => by rw [List.foldl_cons, foldl_snoc as, List.append_assoc, List.singleton_append]

/-! ## The two encoders -/

abbrev rowBytes (row : Row) : Bytes := encodeAll encodeField row

namespace RocksdbDB

theorem serializeRow_eq : ∀ (values : Row) (data : Bytes), serializeRow values data = data ++ rowBytes values
  | [], data => (List.append_nil data).symm
  | f :: values, data => by
    rw [serializeRow, List.foldl_cons, ← serializeRow, serializeRow_eq values]
    simp only [rowBytes, encodeAll_cons, encodeField, frame, List.append_assoc]

end RocksdbDB

namespace RocksdbCli

theorem writeField_eq (base : ℕ) (buf : Bytes) (offset : ℕ) (f : Field) :
    writeField base (buf, offset) f =
      (write buf (base + offset) (encodeField f)).map fun buf => (buf, offset + (encodeField f).length) := by
  have h4 : ∀ n, (le32 n).length = 4 := le32_length
  have hlen : (encodeField f).length = 4 + f.1.length + 4 + f.2.length := by
    simp only [encodeField, frame, List.length_append, le32_length]
    omega
  have hw : write buf (base + offset) (encodeField f) =
      (do let buf ← write buf (base + offset) (le32 f.1.length)
          let buf ← write buf (base + offset + 4) f.1
          let buf ← write buf (base + offset + 4 + f.1.length) (le32 f.2.length)
          write buf (base + offset + 4 + f.1.length + 4) f.2) := by
    rw [encodeField, frame, frame, List.append_assoc, ← write_write]
    congr 1; funext buf
    rw [← write_write]
    congr 1; funext buf
    rw [← write_write]
    rfl
  rw [hw, hlen]
  simp only [writeField, bind, Except.bind, pure, Except.pure, ← Nat.add_assoc]
  cases write buf (base + offset) (le32 f.1.length) with
  | error e => rfl
  | ok buf =>
    simp only
    cases write buf (base + offset + 4) f.1 with
    | error e => rfl
    | ok buf =>
      simp only
      cases write buf (base + offset + 4 + f.1.length) (le32 f.2.length) with
      | error e => rfl
      | ok buf =>
        simp only
        cases write buf (base + offset + 4 + f.1.length + 4) f.2 <;> rfl

theorem serializeRow_write {buf : Bytes} {base : ℕ} (values : Row) (h : base ≤ buf.length) :
    serializeRow values buf base =
      (write buf base (rowBytes values)).map fun buf => (buf, (rowBytes values).length) := by
  rw [serializeRow, foldlM_write (writeField_eq base) values buf 0 h, Nat.add_zero]
  simp only [Nat.zero_add]

theorem serializeRow_eq {values : Row} {buf : Bytes} {base : ℕ} (h : base + (rowBytes values).length ≤ buf.length) :
    serializeRow values buf base =
      .ok (buf.take base ++ (rowBytes values ++ buf.drop (base + (rowBytes values).length)),
        (rowBytes values).length) := by
  rw [serializeRow_write values (by omega), write_ok h]
  rfl

end RocksdbCli

/-! ## The decoding loop -/

namespace RocksdbDB

theorem deserializeRowAt_rowBytes {mem t : Bytes} {row : Row} {p lim : ℕ} (hs : Sized row)
    (hd : mem.drop p = rowBytes row ++ t) (hlim : lim = p + (rowBytes row).length) (values : Row) :
    deserializeRowAt values mem p lim = .ok (values ++ row, lim) := by
  rw [deserializeRowAt, readWhile_all row p values
    (fun f hf => fieldItem_reads (hs f hf).1 (hs f hf).2) hd hlim, foldl_snoc]

theorem deserializeRow_rowBytes {row : Row} (hs : Sized row) :
    deserializeRow [] (rowBytes row) = .ok (row, (rowBytes row).length) :=
  deserializeRowAt_rowBytes (t := []) hs (by simp) (by simp) []

theorem deserializeRowAt_ok {mem : Bytes} {p lim q : ℕ} {row : Row} (h : deserializeRowAt [] mem p lim = .ok (row, q)) :
    mem.drop p = rowBytes row ++ mem.drop lim ∧ q = lim ∧ Sized row := by
  have hx : ∀ p f q, (fieldItem mem).read p = .ok (f, q) → mem.drop p = encodeField f ++ mem.drop q ∧
      f.1.length < 2 ^ 32 ∧ f.2.length < 2 ^ 32 := by
    intro p f q hr
    obtain ⟨hd, h1, h2, _⟩ := readField_ok hr
    exact ⟨hd, h1, h2⟩
  obtain ⟨as, hrow, hd, hq, hs⟩ := readWhile_exact hx p [] row q h
  rw [foldl_snoc, List.nil_append] at hrow
  exact hrow ▸ ⟨hd, hq, hs⟩

theorem deserializeRow_exact {data : Bytes} {row : Row} {q : ℕ} (h : deserializeRow [] data = .ok (row, q)) :
    data = rowBytes row ∧ q = data.length ∧ Sized row := by
  obtain ⟨hd, hq, hs⟩ := deserializeRowAt_ok h
  rw [List.drop_zero, List.drop_length, List.append_nil] at hd
  exact ⟨hd, hq, hs⟩

end RocksdbDB

/-- **The row format is a bijection onto its image, and the decoders accept
exactly that image.** Both encoders write the same bytes. -/
theorem row_codec :
    (∀ row, Sized row →
      RocksdbDB.deserializeRow [] (RocksdbDB.serializeRow row []) =
          .ok (row, (RocksdbDB.serializeRow row []).length) ∧
        RocksdbCli.deserializeRow [] (RocksdbDB.serializeRow row []) 0 (RocksdbDB.serializeRow row []).length =
          .ok (row, (RocksdbDB.serializeRow row []).length)) ∧
      (∀ data row, RocksdbDB.deserializeRow [] data = .ok (row, data.length) ∨
          RocksdbCli.deserializeRow [] data 0 data.length = .ok (row, data.length) →
        RocksdbDB.serializeRow row [] = data) ∧
      (∀ row buf base, base + (RocksdbDB.serializeRow row []).length ≤ buf.length →
        RocksdbCli.serializeRow row buf base =
          .ok (buf.take base ++ (RocksdbDB.serializeRow row [] ++
              buf.drop (base + (RocksdbDB.serializeRow row []).length)),
            (RocksdbDB.serializeRow row []).length)) ∧
      ∀ a b, RocksdbDB.serializeRow (a ++ b) [] = RocksdbDB.serializeRow a [] ++ RocksdbDB.serializeRow b [] := by
  simp only [RocksdbDB.serializeRow_eq, List.nil_append]
  refine ⟨fun row hs => ?_, fun data row h => ?_, fun row buf base => RocksdbCli.serializeRow_eq,
    encodeAll_append _⟩
  · exact ⟨RocksdbDB.deserializeRow_rowBytes hs, RocksdbDB.deserializeRow_rowBytes hs⟩
  · -- the two decoders are the same loop
    exact (RocksdbDB.deserializeRow_exact (h.elim id id)).1.symm

theorem row_codec_two :
    RocksdbDB.deserializeRow [] (RocksdbDB.serializeRow [([102, 48], [1, 2, 3]), ([102, 49], [])] []) =
      .ok ([([102, 48], [1, 2, 3]), ([102, 49], [])], 23) :=
  (row_codec.1 [([102, 48], [1, 2, 3]), ([102, 49], [])] (by
    intro f hf
    simp only [List.mem_cons, List.not_mem_nil, or_false] at hf
    rcases hf with rfl | rfl <;> decide)).1

end Ycsb
