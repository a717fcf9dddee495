import Drakeydb.Journal.Serializer

/-!
# Journal Stream Round Trip

What a writer has written, a reader returns: first the pieces of an entry, as decoders that consume
the bytes the writer made of them, then an entry with the `SELECT` that may stand before it, then a
stream.
-/

namespace Drakeydb.Journal

open List Option UInt64 ByteReader BackedArguments ParsedEntry

open Lib (Decodes)
open ByteReader (readUInt readString)

/-! ## §1 What is written and what is returned -/

/-- An entry that can be written and read back: a command has a name and fits a 32-bit buffer, an
    announcement needs the extended framing and a uuid of an accepted length. -/
def Entry.Writable (extendedFraming : Bool) (entry : Entry) : Prop :=
  match entry.opcode with
  | .command => entry.payload.cmd ≠ [] ∧
      (BackedArguments.stored (entry.payload.cmd :: entry.payload.args)).length < 2 ^ 32
  | .origin => extendedFraming = true ∧ entry.payload.cmd.length ≤ kMaxOriginUuidLen.toNat
  | .expired => False
  | .select | .lsn | .ping => True

/-- The database a reader is at after an entry. -/
def Entry.dbidAfter (db : UInt16) (entry : Entry) : UInt16 :=
  if entry.opcode = .select ∨ entry.opcode = .command then entry.dbid else db

/-- The entries a reader returns, each with the database it is at. -/
def returned (db : UInt16) : List Entry → List (UInt16 × Entry)
  | [] => []
  | entry :: entries =>
    if entry.opcode = .select then returned entry.dbid entries
    else (entry.dbidAfter db, entry) :: returned (entry.dbidAfter db) entries

/-- No command relies on a database the writer has announced before an explicit `SELECT` of another
    one: the writer does not take notice of explicit `SELECT`s. -/
def SelectsOk (curDbid : Option UInt16) (db : UInt16) : List Entry → Prop
  | [] => True
  | entry :: entries =>
    match entry.opcode with
    | .command => (curDbid = some entry.dbid → db = entry.dbid) ∧
        SelectsOk (some entry.dbid) entry.dbid entries
    | .select => SelectsOk curDbid entry.dbid entries
    | _ => SelectsOk curDbid db entries

/-- The entry a reader makes of a written one. What the framing does not carry has its default, or
    is what the caller's entry had before. -/
structure Entry.ReadAs (extendedFraming : Bool) (db : UInt16) (dest : ParsedEntry) (entry : Entry)
    (parsed : ParsedEntry) : Prop where
  opcode : parsed.opcode = entry.opcode.code
  dbid : parsed.dbid = db
  txid : parsed.txid = if entry.opcode = .command then entry.txid else dest.txid
  lsn : parsed.lsn = if entry.opcode = .lsn then entry.lsn else dest.lsn
  slot : parsed.slot = dest.slot
  originIdx : parsed.originIdx = if entry.opcode = .origin ∨
    entry.opcode = .command ∧ extendedFraming = true then entry.originIdx else 0
  mvcc : parsed.mvcc = if entry.opcode = .command ∧ extendedFraming = true then entry.mvcc else 0
  entryFlags : parsed.entryFlags =
    if entry.opcode = .command ∧ extendedFraming = true then entry.entryFlags else 0
  cmd : parsed.cmd.view =
    if entry.opcode = .command then entry.payload.cmd :: entry.payload.args else []
  originUuid : parsed.originUuid = if entry.opcode = .origin then entry.payload.cmd else []

/-! ## §2 Reading an entry back -/

section RoundTrip

variable (plan : ReadPlan)

theorem le_uint64Max (value : UInt64) : value ≤ uint64Max := by
  have := value.toNat_lt
  show value.toNat ≤ 2 ^ 64 - 1
  omega

theorem toUInt64_le_uint32Max (x : UInt32) : x.toUInt64 ≤ uint32Max := by
  exact Nat.le_of_lt_succ x.toNat_lt

theorem toUInt64_le_uint8Max (x : UInt8) : x.toUInt64 ≤ uint8Max := by
  exact Nat.le_of_lt_succ x.toNat_lt

theorem toNat_ofNat_length (str : Bytes) (hlen : str.length < 2 ^ 64) :
    (UInt64.ofNat str.length).toNat = str.length := by
  exact Nat.mod_eq_of_lt hlen

variable {bytes : Bytes}

theorem writeString_decodes {str : Bytes} (hlen : str.length < 2 ^ 64) {α : Type}
    {f : UInt64 → Bytes → Reader α} {a : α} {p : UInt64 → Prop} [DecidablePred p]
    (err : ErrorCode) (hp : ¬ p (UInt64.ofNat str.length))
    (hf : Decodes pending (f (UInt64.ofNat str.length) str) bytes a) :
    Decodes pending (do
      let size ← readUInt plan uint64Max
      if p size then throw err
      else do
        let str ← readString plan size.toNat
        f size str) (writeString str ++ bytes) a := by
  rw [writeString, append_assoc]
  refine (readUInt_decodes plan (le_uint64Max _)).bind (Decodes.guard _ hp ?_)
  rw [toNat_ofNat_length str hlen]
  exact (readString_decodes plan str).bind hf

/-- The loop of `ReadCommand` reads the strings that were written. -/
theorem readStrings_decodes {pre strs : List Bytes} {data : BackedArguments}
    (hdata : data.Holds pre) {cmdSize : UInt64} (hsize : cmdSize.toNat = (strs.map List.length).sum)
    (hlen : (stored (pre ++ strs)).length < 2 ^ 32) :
    ∃ data', data'.Holds (pre ++ strs) ∧
      Decodes pending (readStrings plan pre.length strs.length cmdSize data)
        (strs.flatMap writeString) data' := by
  induction strs generalizing pre data cmdSize with
  | nil => exact ⟨data, by rwa [append_nil], Decodes.pure data⟩
  | cons str strs ih =>
    rw [map_cons, sum_cons] at hsize
    have hcmd := cmdSize.toNat_lt
    have hstr := toNat_ofNat_length str (by omega)
    have hpre : (stored pre).length < 2 ^ 32 := by
      rw [stored_append, length_append] at hlen
      omega
    have hle : UInt64.ofNat str.length ≤ cmdSize := by
      rw [le_iff_toNat_le, hstr]
      omega
    have hrest : (cmdSize - UInt64.ofNat str.length).toNat = (strs.map length).sum := by
      rw [UInt64.toNat_sub_of_le _ _ hle, hstr]
      omega
    rw [append_cons] at hlen
    obtain ⟨data', hholds, hdecodes⟩ := ih (hdata.push str hpre) hrest hlen
    refine ⟨data', by rwa [append_cons], ?_⟩
    rw [length_append, length_singleton] at hdecodes
    refine writeString_decodes plan (by omega) .ioError (UInt64.not_lt.mpr hle) ?_
    rw [hstr]
    exact hdecodes

theorem readCommand_decodes {payload : Payload} (hcmd : payload.cmd ≠ [])
    (hlen : (stored (payload.cmd :: payload.args)).length < 2 ^ 32) :
    ∃ data, data.view = payload.cmd :: payload.args ∧
      Decodes pending (readCommand plan empty) (writePayload payload) data := by
  have hbytes : (stored (payload.cmd :: payload.args)).length =
      payload.size + (payload.args.length + 1) := length_stored _
  have hcount : (UInt64.ofNat (1 + payload.args.length)).toNat =
    (payload.cmd :: payload.args).length := by
    rw [toNat_ofNat', Nat.mod_eq_of_lt (by omega), length_cons, Nat.add_comm]
  have hsize : (UInt64.ofNat payload.size).toNat =
    ((payload.cmd :: payload.args).map length).sum := by
    rw [toNat_ofNat', Nat.mod_eq_of_lt (by omega)]
    rfl
  obtain ⟨data, hholds, hdecodes⟩ :=
    readStrings_decodes plan holds_empty hsize (by rwa [nil_append])
  refine ⟨data, hholds.view hlen, ?_⟩
  rw [writePayload, if_neg hcmd, append_assoc, append_assoc]
  refine (readUInt_decodes plan (le_uint64Max _)).bind ?_
  refine (readUInt_decodes plan (le_uint64Max _)).bind ?_
  rw [hcount]
  exact hdecodes

/-- The fields of the extended framing. -/
def ParsedEntry.framed (extendedFraming : Bool) (entry : Entry) (dest : ParsedEntry) :
    ParsedEntry :=
  if !extendedFraming then dest
  else
    { dest with
      originIdx := entry.originIdx, mvcc := entry.mvcc, entryFlags := entry.entryFlags }

theorem readFraming_decodes (extendedFraming : Bool) (entry : Entry) (dest : ParsedEntry) :
    Decodes pending (readFraming plan dest)
      (if !extendedFraming then writePackedUInt 1
        else writePackedUInt 2 ++ writePackedUInt entry.originIdx.toUInt64 ++
          writePackedUInt entry.mvcc ++ writePackedUInt entry.entryFlags.toUInt64)
      (dest.framed extendedFraming entry) := by
  cases extendedFraming with
  | false =>
    refine (readUInt_decodes plan (by decide : (1 : UInt64) ≤ uint32Max)).bind_nil ?_
    exact Decodes.guard _ (by decide) (Decodes.guard _ (by decide) (Decodes.pure dest))
  | true =>
    simp only [Bool.not_true, Bool.false_eq_true, if_false, append_assoc]
    refine (readUInt_decodes plan (by decide)).bind ?_
    refine (readUInt_decodes plan (toUInt64_le_uint32Max _)).bind ?_
    refine (readUInt_decodes plan (le_uint64Max _)).bind ?_
    refine (readUInt_decodes plan (toUInt64_le_uint8Max _)).bind_nil ?_
    rw [UInt32.toUInt32_toUInt64, UInt8.toUInt8_toUInt64]
    exact Decodes.pure _

variable {entry : Entry} {extendedFraming : Bool} {body : Bytes}

/-- Everything after the opcode is read back. -/
theorem readBody_decodes (hw : entry.Writable extendedFraming) (hsel : entry.opcode ≠ .select)
    (hbody : writeBody extendedFraming entry = some body) (db : UInt16) (dest : ParsedEntry) :
    ∃ parsed, entry.ReadAs extendedFraming db dest parsed ∧
      Decodes pending (readBody plan (dest.reset db entry.opcode.code)) body parsed := by
  have hempty : empty.view = [] := rfl
  have hcode : ∀ code, (dest.reset db code).opcode = code := fun _ => rfl
  rw [readBody, hcode]
  cases hop : entry.opcode with
  | select => exact absurd hop hsel
  | expired => simp [Entry.Writable, hop] at hw
  | ping =>
    obtain rfl : [] = body := by simpa [writeBody, hop] using hbody
    refine ⟨dest.reset db Op.ping.code, ?_, ?_⟩
    · constructor <;> simp [hop, reset, hempty]
    · exact Decodes.pure _
  | lsn =>
    obtain rfl : writePackedUInt entry.lsn = body := by simpa [writeBody, hop] using hbody
    refine ⟨{ dest.reset db Op.lsn.code with lsn := entry.lsn }, ?_, ?_⟩
    · constructor <;> simp [hop, reset, hempty]
    · exact (readUInt_decodes plan (le_uint64Max _)).bind_nil (Decodes.pure _)
  | origin =>
    obtain rfl : writePackedUInt entry.originIdx.toUInt64 ++ writeString entry.payload.cmd = body :=
      by simpa [writeBody, hop] using hbody
    obtain ⟨hext, hlen⟩ : extendedFraming = true ∧
      entry.payload.cmd.length ≤ kMaxOriginUuidLen.toNat := by
      simpa [Entry.Writable, hop] using hw
    refine ⟨{ dest.reset db Op.origin.code with
      originIdx := entry.originIdx
      originUuid := entry.payload.cmd }, ?_, ?_⟩
    · constructor <;> simp [hop, reset, hempty]
    · have hshort : entry.payload.cmd.length < 2 ^ 64 := hlen.trans_lt (by decide)
      have hguard : ¬ UInt64.ofNat entry.payload.cmd.length > kMaxOriginUuidLen := by
        rw [UInt64.not_lt, UInt64.le_iff_toNat_le, toNat_ofNat_length _ hshort]
        exact hlen
      refine (readUInt_decodes plan (toUInt64_le_uint32Max _)).bind ?_
      rw [← append_nil (writeString _), UInt32.toUInt32_toUInt64]
      exact writeString_decodes plan hshort .illegalByteSequence hguard (Decodes.pure _)
  | command =>
    obtain ⟨hcmd, hlen⟩ : entry.payload.cmd ≠ [] ∧ (stored
        (entry.payload.cmd :: entry.payload.args)).length < 2 ^ 32 := by
      simpa [Entry.Writable, hop] using hw
    obtain ⟨data, hview, hdata⟩ := readCommand_decodes plan hcmd hlen
    have hframing := readFraming_decodes plan extendedFraming entry
      { dest.reset db Op.command.code with txid := entry.txid }
    simp only [writeBody, hop, some.injEq] at hbody
    rw [← hbody, if_neg (by decide), if_neg (by decide), if_neg (by decide), append_assoc]
    refine ⟨{ framed extendedFraming entry { dest.reset db Op.command.code with
      txid := entry.txid } with cmd := data }, ?_, ?_⟩
    · cases extendedFraming <;> constructor <;> simp [hop, reset, framed, hview]
    · refine (readUInt_decodes plan (le_uint64Max _)).bind (hframing.bind ?_)
      cases extendedFraming <;> exact hdata.bind_nil (Decodes.pure _)

/-! ## §3 Reading a stream back -/

variable {dest : ParsedEntry} {db : UInt16}

theorem readEntryFrom_mono {fuel fuel' : ℕ} {r : ByteReader}
    {x : (UInt16 × ParsedEntry) × ByteReader}
    (hle : fuel ≤ fuel') (h : (readEntryFrom plan dest fuel db).run r = .ok x) :
    (readEntryFrom plan dest fuel' db).run r = .ok x := by
  induction fuel generalizing fuel' db r with
  | zero =>
    have herr : Except.error ErrorCode.ioError = Except.ok x := h
    cases herr
  | succ fuel ih =>
    obtain ⟨fuel', rfl⟩ : ∃ k, fuel' = k + 1 := ⟨fuel' - 1, by omega⟩
    rw [readEntryFrom] at h ⊢
    cases hop : (readUInt plan uint8Max).run r with
    | error e =>
      rw [Lib.run_bind_error hop] at h
      cases h
    | ok y =>
      rw [Lib.run_bind_ok hop] at h ⊢
      by_cases hsel : y.1.toUInt8 = Op.select.code
      · rw [if_pos hsel] at h ⊢
        cases hdb : (readUInt plan uint16Max).run y.2 with
        | error e =>
          rw [Lib.run_bind_error hdb] at h
          cases h
        | ok z =>
          rw [Lib.run_bind_ok hdb] at h ⊢
          exact ih (by omega) h
      · rw [if_neg hsel] at h ⊢
        exact h

variable {r : JournalReader} {rest : Bytes}

/-- A `SELECT` moves the reader to another database and is not returned. -/
theorem JournalReader.readEntry_select {d : UInt16}
    (hr : r.bytes.pending = writeOp .select ++ writePackedUInt d.toUInt64 ++ rest) :
    ∃ r1 : JournalReader, r1.dbid = d ∧ r1.bytes.pending = rest ∧
      ∀ dest x, r1.readEntry plan dest = .ok x → r.readEntry plan dest = .ok x := by
  have hd : d.toUInt64 ≤ uint16Max := by
    exact Nat.le_of_lt_succ d.toNat_lt
  have hlen : rest.length + 1 ≤ r.bytes.pending.length := by
    obtain ⟨firstByte, tail, hbytes, -⟩ := readPackedUInt_writePackedUInt d.toUInt64
    rw [hr, hbytes, length_append, length_append, length_cons]
    omega
  obtain ⟨s1, hrun1, hs1⟩ :=
    readUInt_decodes plan (by decide : Op.select.code.toUInt64 ≤ uint8Max) _ _ hr
  obtain ⟨s2, hrun2, hs2⟩ := readUInt_decodes plan hd _ _ hs1
  refine ⟨⟨s2, d⟩, rfl, hs2, fun dest x hx => ?_⟩
  rw [readEntry] at hx ⊢
  -- one turn of the recursion: the opcode, the index, and the rest with less fuel
  have hturn : (readEntryFrom plan dest (r.bytes.pending.length + 1) r.dbid).run r.bytes =
      (readEntryFrom plan dest r.bytes.pending.length d).run s2 := by
    simp [readEntryFrom, Lib.run_bind_ok hrun1, Lib.run_bind_ok hrun2]
  rw [hturn]
  cases hrest : (readEntryFrom plan dest (s2.pending.length + 1) d).run s2 with
  | error e =>
    rw [hrest] at hx
    have herr : Except.error e = Except.ok x := hx
    cases herr
  | ok y =>
    change (Except.bind (StateT.run _ s2) _) = _ at hx
    rw [hrest] at hx
    rw [readEntryFrom_mono plan (by rw [hs2]; exact hlen) hrest]
    exact hx

theorem JournalReader.readEntry_entry (hw : entry.Writable extendedFraming)
    (hsel : entry.opcode ≠ .select) (hbody : writeBody extendedFraming entry = some body)
    (hr : r.bytes.pending = writeOp entry.opcode ++ body ++ rest) (dest : ParsedEntry) :
    ∃ parsed r', r.readEntry plan dest = .ok (parsed, r') ∧
      entry.ReadAs extendedFraming r.dbid dest parsed ∧ r'.dbid = r.dbid ∧
        r'.bytes.pending = rest := by
  have hne : entry.opcode.code ≠ Op.select.code := by
    cases hop' : entry.opcode <;> simp_all [Op.code]
  obtain ⟨parsed, hread, hdecodes⟩ := readBody_decodes plan hw hsel hbody r.dbid dest
  rw [append_assoc] at hr
  obtain ⟨s1, hrun1, hs1⟩ := readUInt_decodes plan (toUInt64_le_uint8Max _) _ _ hr
  obtain ⟨s2, hrun2, hs2⟩ := hdecodes _ _ hs1
  refine ⟨parsed, ⟨s2, r.dbid⟩, ?_, hread, rfl, hs2⟩
  have hturn : (readEntryFrom plan dest (r.bytes.pending.length + 1) r.dbid).run r.bytes =
      .ok ((r.dbid, parsed), s2) := by
    rw [readEntryFrom, Lib.run_bind_ok hrun1, UInt8.toUInt8_toUInt64, if_neg hne,
      Lib.run_bind_ok hrun2]
    rfl
  rw [readEntry, hturn]
  rfl

variable {dests : List ParsedEntry}

theorem JournalReader.readEntries_select {r1 : JournalReader} {y : List ParsedEntry × JournalReader}
    (h : ∀ x, r1.readEntry plan dest = .ok x → r.readEntry plan dest = .ok x)
    (hy : r1.readEntries plan (dest :: dests) = .ok y) : r.readEntries plan
    (dest :: dests) = .ok y := by
  rw [readEntries] at hy ⊢
  cases hx : r1.readEntry plan dest with
  | error e =>
    rw [hx] at hy
    have herr : Except.error e = Except.ok y := hy
    cases herr
  | ok x =>
    rw [h x hx]
    rw [hx] at hy
    exact hy

theorem JournalReader.readEntries_cons {r1 r2 : JournalReader} {parsed : ParsedEntry}
    {entries : List ParsedEntry} (h : r.readEntry plan dest = .ok (parsed, r1))
    (hrest : r1.readEntries plan dests = .ok (entries, r2)) :
    r.readEntries plan (dest :: dests) = .ok (parsed :: entries, r2) := by
  rw [readEntries, h]
  show Except.bind (r1.readEntries plan dests) _ = _
  rw [hrest]
  rfl

variable {w : JournalWriter}

/-- Every writable entry is written: its bytes, after a `SELECT` where one is needed. -/
theorem JournalWriter.write_eq (hw : entry.Writable w.extendedFraming) :
    ∃ body, writeBody w.extendedFraming entry = some body ∧
      w.write entry = some (if w.needsSelect entry then
        ({ w with curDbid := some entry.dbid },
          writeOp .select ++ writePackedUInt entry.dbid.toUInt64 ++ (writeOp entry.opcode ++ body))
        else (w, writeOp entry.opcode ++ body)) := by
  have hbody : ∃ body, writeBody w.extendedFraming entry = some body := by
    cases hop : entry.opcode <;> simp [writeBody, hop]
    simp [Entry.Writable, hop] at hw
  obtain ⟨body, hbody⟩ := hbody
  refine ⟨body, hbody, ?_⟩
  have hframing : ¬ (entry.opcode = .origin ∧ w.extendedFraming = false) := by
    rintro ⟨hop, hext⟩
    simp [Entry.Writable, hop, hext] at hw
  rw [write, if_neg hframing, hbody, map_some]

variable {entries : List Entry}

theorem returned_eq_nil (h : returned db entries = [])
    (hlast : ∀ entry ∈ entries.getLast?, entry.opcode ≠ .select) : entries = [] := by
  induction entries generalizing db with
  | nil => rfl
  | cons entry entries ih =>
    rw [returned] at h
    split at h
    · rename_i hsel
      cases entries with
      | nil => exact absurd hsel (hlast entry rfl)
      | cons entry' entries =>
        have := ih h (by rwa [getLast?_cons_cons] at hlast)
        cases this
    · cases h

variable {w' : JournalWriter}

section

variable (hw : entry.Writable w.extendedFraming)
include hw

/-- What is written for an entry: a command of another database has a `SELECT` before it. -/
theorem JournalWriter.write_cases (hwrite : w.write entry = some (w', bytes)) :
    ∃ body, writeBody w.extendedFraming entry = some body ∧
      (entry.opcode = .command ∧ w' = { w with curDbid := some entry.dbid } ∧
          bytes = writeOp .select ++ writePackedUInt entry.dbid.toUInt64 ++
            (writeOp entry.opcode ++ body) ∨
        (entry.opcode = .command → w.curDbid = some entry.dbid) ∧ w' = w ∧
          bytes = writeOp entry.opcode ++ body) := by
  obtain ⟨body, hbody, hwrite'⟩ := JournalWriter.write_eq hw
  rw [hwrite', some.injEq] at hwrite
  refine ⟨body, hbody, ?_⟩
  cases hneed : w.needsSelect entry with
  | true =>
    rw [hneed, if_pos rfl] at hwrite
    cases hwrite
    refine .inl ⟨?_, rfl, rfl⟩
    cases hop : entry.opcode <;> simp_all [needsSelect, Entry.Writable]
  | false =>
    rw [hneed, if_neg Bool.false_ne_true] at hwrite
    cases hwrite
    exact .inr ⟨fun hop => by simpa [needsSelect, hop] using hneed, rfl, rfl⟩

/-- A written entry is returned, with or without a `SELECT` before it. -/
theorem JournalReader.readEntry_write (hsel : entry.opcode ≠ .select)
    (hdb : entry.opcode = .command → w.curDbid = some entry.dbid → r.dbid = entry.dbid)
    (hwrite : w.write entry = some (w', bytes)) (hr : r.bytes.pending = bytes ++ rest)
    (dest : ParsedEntry) :
    ∃ parsed r', r.readEntry plan dest = .ok (parsed, r') ∧
      entry.ReadAs w.extendedFraming (entry.dbidAfter r.dbid) dest parsed ∧
      r'.dbid = entry.dbidAfter r.dbid ∧ r'.bytes.pending = rest := by
  obtain ⟨body, hbody, ⟨hop, -, rfl⟩ | ⟨hcur, -, rfl⟩⟩ := JournalWriter.write_cases hw hwrite
  · have hafter : entry.dbidAfter r.dbid = entry.dbid := if_pos (Or.inr hop)
    rw [append_assoc] at hr
    obtain ⟨r1, hdb1, hpending₁, hsame⟩ := readEntry_select plan hr
    obtain ⟨parsed, r', hread, hparsed, hdb', hpending⟩ :=
      readEntry_entry plan hw hsel hbody hpending₁ dest
    rw [hdb1] at hparsed hdb'
    exact ⟨parsed, r', hsame dest _ hread, hafter ▸ hparsed, hdb'.trans hafter.symm, hpending⟩
  · have hafter : entry.dbidAfter r.dbid = r.dbid := by
      by_cases hop : entry.opcode = .command
      · exact (if_pos (Or.inr hop)).trans (hdb hop (hcur hop)).symm
      · exact if_neg (not_or.mpr ⟨hsel, hop⟩)
    obtain ⟨parsed, r', hread, hparsed, hdb', hpending⟩ :=
      readEntry_entry plan hw hsel hbody hr dest
    exact ⟨parsed, r', hread, hafter.symm ▸ hparsed, hdb'.trans hafter.symm, hpending⟩

theorem JournalWriter.write_curDbid (hwrite : w.write entry = some (w', bytes)) :
    w'.extendedFraming = w.extendedFraming ∧
      w'.curDbid = if entry.opcode = .command then some entry.dbid else w.curDbid := by
  obtain ⟨body, -, ⟨hop, rfl, -⟩ | ⟨hcur, rfl, -⟩⟩ := write_cases hw hwrite
  · exact ⟨rfl, (if_pos hop).symm⟩
  · refine ⟨rfl, ?_⟩
    split
    · exact hcur ‹_›
    · rfl

end

/-- The entries a reader returns are those written, one for each of the caller's entries. -/
def ReadBack (extendedFraming : Bool) (db : UInt16) (entries : List Entry)
    (dests parsed : List ParsedEntry) : Prop :=
  List.Forall₂ (fun x parsed => x.1.2.ReadAs extendedFraming x.1.1 x.2 parsed)
    ((returned db entries).zip dests) parsed

section

variable (hw : ∀ entry ∈ entries, entry.Writable w.extendedFraming)
include hw

theorem JournalReader.readEntries_writeAll (hselects : SelectsOk w.curDbid r.dbid entries)
    (hlast : ∀ entry ∈ entries.getLast?, entry.opcode ≠ .select)
    (hwrite : w.writeAll entries = some bytes)
    (hr : r.bytes.pending = bytes ++ rest)
    (hdests : dests.length = (returned r.dbid entries).length) :
    ∃ parsed r', r.readEntries plan dests = .ok (parsed, r') ∧ r'.bytes.pending = rest ∧
      ReadBack w.extendedFraming r.dbid entries dests parsed := by
  induction entries generalizing w r dests bytes with
  | nil =>
    obtain rfl : [] = bytes := some.inj hwrite
    obtain rfl : dests = [] := length_eq_zero_iff.mp hdests
    exact ⟨[], r, rfl, hr, List.Forall₂.nil⟩
  | cons entry entries ih =>
    have hentry := hw entry mem_cons_self
    have hrest : ∀ entry ∈ entries, entry.Writable w.extendedFraming :=
      fun e he => hw e (mem_cons_of_mem _ he)
    have hlast' : ∀ entry ∈ entries.getLast?, entry.opcode ≠ .select := by
      cases entries with
      | nil => simp
      | cons e es => rwa [getLast?_cons_cons] at hlast
    obtain ⟨⟨w', b⟩, hone, hall⟩ := bind_eq_some_iff.mp hwrite
    obtain ⟨bs, hmore, hbytes⟩ := bind_eq_some_iff.mp hall
    obtain rfl : b ++ bs = bytes := some.inj hbytes
    rw [append_assoc] at hr
    obtain ⟨hext, hcur⟩ := JournalWriter.write_curDbid hentry hone
    rw [← hext] at hrest
    by_cases hsel : entry.opcode = .select
    · -- an explicit `SELECT`: the reader moves on to the next entry
      have hreturned : returned r.dbid (entry :: entries) = returned entry.dbid entries :=
        if_pos hsel
      have hb : writeOp .select ++ writePackedUInt entry.dbid.toUInt64 = b := by
        have := congrArg (Option.map Prod.snd) hone
        simpa [JournalWriter.write, JournalWriter.needsSelect, writeBody, hsel] using this
      rw [← hb] at hr
      obtain ⟨r1, hdb1, hpending₁, hsame⟩ := readEntry_select plan hr
      have hselects' : SelectsOk w'.curDbid r1.dbid entries := by
        rw [hcur, hdb1]
        simpa [SelectsOk, hsel] using hselects
      rw [hreturned, ← hdb1] at hdests
      obtain ⟨parsed, r', hread, hpending, hback⟩ :=
        ih hrest hselects' hlast' hmore hpending₁ hdests
      cases dests with
      | nil =>
        -- a `SELECT` is not the last entry
        have hnil := returned_eq_nil (length_eq_zero_iff.mp hdests.symm) hlast'
        subst hnil
        exact absurd hsel (hlast entry rfl)
      | cons dest dests =>
        refine ⟨parsed, r', readEntries_select plan (hsame dest) hread, hpending, ?_⟩
        rw [ReadBack, hreturned, ← hdb1, ← hext]
        exact hback
    · -- any other entry is returned
      have hreturned : returned r.dbid (entry :: entries) =
          (entry.dbidAfter r.dbid, entry) :: returned (entry.dbidAfter r.dbid) entries :=
        if_neg hsel
      rw [hreturned] at hdests
      obtain ⟨dest, dests, rfl⟩ := exists_of_length_succ dests hdests
      have hdb : entry.opcode = .command → w.curDbid = some entry.dbid → r.dbid = entry.dbid := by
        intro hop
        rw [SelectsOk, hop] at hselects
        exact hselects.1
      obtain ⟨one, r1, hread1, hone', hdb1, hpending₁⟩ :=
        readEntry_write plan hentry hsel hdb hone hr dest
      have hselects' : SelectsOk w'.curDbid r1.dbid entries := by
        rw [hcur, hdb1, Entry.dbidAfter]
        cases hop : entry.opcode <;> simp_all [SelectsOk]
      have hdests' : dests.length = (returned r1.dbid entries).length := by
        rw [hdb1]
        simpa using hdests
      obtain ⟨parsed, r', hread, hpending, hback⟩ :=
        ih hrest hselects' hlast' hmore hpending₁ hdests'
      refine ⟨one :: parsed, r', readEntries_cons plan hread1 hread, hpending, ?_⟩
      rw [ReadBack, hreturned, zip_cons_cons]
      rw [ReadBack, hdb1, hext] at hback
      exact List.Forall₂.cons hone' hback

theorem JournalWriter.writeAll_isSome : ∃ bytes, w.writeAll entries = some bytes := by
  induction entries generalizing w with
  | nil => exact ⟨[], rfl⟩
  | cons entry entries ih =>
    have hentry := hw entry mem_cons_self
    obtain ⟨⟨w', b⟩, hone⟩ : ∃ x, w.write entry = some x := by
      obtain ⟨body, -, hone⟩ := JournalWriter.write_eq hentry
      exact ⟨_, hone⟩
    obtain ⟨hext, -⟩ := JournalWriter.write_curDbid hentry hone
    obtain ⟨bs, hmore⟩ := ih (w := w') fun e he => by
      rw [hext]
      exact hw e (mem_cons_of_mem _ he)
    refine ⟨b ++ bs, ?_⟩
    rw [writeAll, hone]
    show bind (w'.writeAll entries) _ = _
    rw [hmore]
    rfl

end

end RoundTrip

/-- **Journal stream round trip.**  Whatever one writer writes, in either framing, a reader of any
    starting database returns entry by entry, `SELECT`s apart, and consumes exactly the bytes
    written: however the source splits them into reads, and whatever the caller's entries held
    before. -/
theorem journal_round_trip (extendedFraming : Bool) (db : UInt16) (entries : List Entry)
    (hw : ∀ entry ∈ entries, entry.Writable extendedFraming)
    (hselects : SelectsOk none db entries)
    (hlast : ∀ entry ∈ entries.getLast?, entry.opcode ≠ .select) :
    ∃ bytes, JournalWriter.writeAll ⟨none, extendedFraming⟩ entries = some bytes ∧
      ∀ (plan : ReadPlan) (r : JournalReader) (rest : Bytes) (dests : List ParsedEntry),
        r.dbid = db → r.bytes.pending = bytes ++ rest →
        dests.length = (returned db entries).length →
        ∃ parsed r', r.readEntries plan dests = .ok (parsed, r') ∧ r'.bytes.pending = rest ∧
          ReadBack extendedFraming db entries dests parsed := by
  obtain ⟨bytes, hbytes⟩ := JournalWriter.writeAll_isSome (w := ⟨none, extendedFraming⟩) hw
  refine ⟨bytes, hbytes, fun plan r rest dests hdb hr hdests => ?_⟩
  subst hdb
  exact JournalReader.readEntries_writeAll plan (w := ⟨none, extendedFraming⟩) hw hselects hlast
    hbytes hr hdests

/-- An entry of the caller's that nothing has been read into. -/
def ParsedEntry.blank : ParsedEntry := ⟨0, 0, 0, none, 0, 0, 0, 0, BackedArguments.empty, []⟩

/-- A command of another database, a ping, and a command with the extended header. -/
def sampleEntries : List Entry :=
  [{ opcode := .command, txid := 70000, dbid := 3, payload := ⟨[71, 69, 84], [[107]]⟩ },
    { opcode := .ping },
    { opcode := .command, dbid := 3, mvcc := 5, payload := ⟨[68, 69, 76], [[], [107]]⟩ }]

theorem journal_round_trip_sample :
    ∃ bytes, JournalWriter.writeAll ⟨none, true⟩ sampleEntries = some bytes ∧
      ∃ parsed r', JournalReader.readEntries ⟨fun _ => 1, fun _ => 4⟩ ⟨⟨[], bytes, 0⟩, 0⟩
          (List.replicate 3 ParsedEntry.blank) = .ok (parsed, r') ∧ r'.bytes.pending = [] ∧
        ReadBack true 0 sampleEntries (List.replicate 3 ParsedEntry.blank) parsed := by
  have hw : ∀ entry ∈ sampleEntries, entry.Writable true := by
    simp [sampleEntries, Entry.Writable, BackedArguments.stored]
  have hselects : SelectsOk none 0 sampleEntries := by
    simp [sampleEntries, SelectsOk]
  obtain ⟨bytes, hbytes, hread⟩ := journal_round_trip true 0 sampleEntries hw hselects
    (by simp [sampleEntries])
  exact ⟨bytes, hbytes, hread _ _ [] _ rfl (append_nil bytes).symm rfl⟩

/-- A written `SELECT` is not returned as an entry: of a stream of a `SELECT` and a `PING` the
reader returns the `PING`, at the selected database, and then reports the end of the stream. An
`EXPIRED` entry is not written at all. -/
theorem select_is_not_returned :
    (∃ bytes, JournalWriter.writeAll ⟨none, false⟩ [{ opcode := .select, dbid := 1 },
        { opcode := .ping }] = some bytes ∧
      (JournalReader.readEntries ⟨fun _ => 0, fun _ => 4096⟩ ⟨⟨[], bytes, 0⟩, 0⟩
          [ParsedEntry.blank]).map (fun x => x.1.map fun e => (e.opcode, e.dbid)) =
        .ok [(Op.ping.code, 1)] ∧
      (JournalReader.readEntries ⟨fun _ => 0, fun _ => 4096⟩ ⟨⟨[], bytes, 0⟩, 0⟩
        [ParsedEntry.blank, ParsedEntry.blank]).map (fun x => x.1.length) = .error .ioError) ∧
    JournalWriter.write ⟨none, false⟩ { opcode := .expired, payload := ⟨[68, 69, 76], [[107]]⟩ } =
      none := by
  refine ⟨⟨_, rfl, ?_, ?_⟩, rfl⟩
  · decide +kernel
  · decide +kernel

end Drakeydb.Journal
