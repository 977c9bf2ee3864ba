import SystemsProgramming.Foundations.Records
import SystemsProgramming.PacketSniffer.Sniffer

/-!
# The pcap format

What a reader makes of a capture file: a global header, and behind it nothing but records, each with a
header that says how many bytes of a frame follow. The reader gives back what was written.
-/

namespace SystemsProgramming.PacketSniffer

open Foundations

/-- A record of a capture file: as many bytes as its header says. -/
structure Record where
  header : PacketHeader
  data : List UInt8
  complete : header.inclLen = data.length

/-- The bytes of a record. -/
def Record.bytes (r : Record) : List UInt8 := r.header.bytes ++ r.data

/-- Read a number of `n` bytes off the beginning. -/
def readUint (n : Nat) (bs : List UInt8) : Option (Nat × List UInt8) :=
  if n ≤ bs.length then some (ofLe (bs.take n), bs.drop n) else none

/-- Read a global header. -/
def readPcapHeader (bs : List UInt8) : Option (PcapHeader × List UInt8) := do
  let (magicNumber, bs) ← readUint 4 bs
  let (versionMajor, bs) ← readUint 2 bs
  let (versionMinor, bs) ← readUint 2 bs
  let (reserved1, bs) ← readUint 4 bs
  let (reserved2, bs) ← readUint 4 bs
  let (snaplen, bs) ← readUint 4 bs
  let (linkType, bs) ← readUint 4 bs
  if magicNumber = 0xA1B2C3D4 then
    return (⟨magicNumber, versionMajor, versionMinor, reserved1, reserved2, snaplen, linkType⟩, bs)
  else
    none

/-- Read the header of a record. -/
def readPacketHeader (bs : List UInt8) : Option (PacketHeader × List UInt8) := do
  let (tsSec, bs) ← readUint 4 bs
  let (tsUsec, bs) ← readUint 4 bs
  let (inclLen, bs) ← readUint 4 bs
  let (origLen, bs) ← readUint 4 bs
  return (⟨tsSec, tsUsec, inclLen, origLen⟩, bs)

/-- Read a record. -/
def readRecord (bs : List UInt8) : Option (Record × List UInt8) := do
  let (header, bs) ← readPacketHeader bs
  if h : header.inclLen ≤ bs.length then
    return (⟨header, bs.take header.inclLen, (List.length_take_of_le h).symm⟩, bs.drop header.inclLen)
  else
    none

/-- Read a capture file to its end. -/
def decode (bs : List UInt8) : Option (PcapHeader × List Record) := do
  let (header, bs) ← readPcapHeader bs
  let records ← readRecords readRecord bs
  return (header, records)

/-! ## The reader gives back what was written -/

/-- The fields fit into their bytes. -/
def PacketHeader.Fits (h : PacketHeader) : Prop :=
  h.tsSec < 256 ^ 4 ∧ h.tsUsec < 256 ^ 4 ∧ h.inclLen < 256 ^ 4 ∧ h.origLen < 256 ^ 4

theorem readUint_toLe {n w : Nat} (h : w < 256 ^ n) (bs : List UInt8) :
    readUint n (toLe n w ++ bs) = some (w, bs) := by
  have hlen : n ≤ (toLe n w ++ bs).length := by simp
  rw [readUint, if_pos hlen, List.take_left' (toLe_length n w), List.drop_left' (toLe_length n w),
    ofLe_toLe_of_lt h]

theorem readPacketHeader_bytes {h : PacketHeader} (hfits : h.Fits) (bs : List UInt8) :
    readPacketHeader (h.bytes ++ bs) = some (h, bs) := by
  obtain ⟨h1, h2, h3, h4⟩ := hfits
  simp only [readPacketHeader, PacketHeader.bytes, List.append_assoc, readUint_toLe h1,
    readUint_toLe h2, readUint_toLe h3, readUint_toLe h4, Option.bind_eq_bind, Option.bind_some]
  rfl

theorem readRecord_bytes {r : Record} (hfits : r.header.Fits) (bs : List UInt8) :
    readRecord (r.bytes ++ bs) = some (r, bs) := by
  obtain ⟨header, data, complete⟩ := r
  have hlen : data.length ≤ (data ++ bs).length := by
    rw [List.length_append]
    omega
  simp only [readRecord, Record.bytes, List.append_assoc, readPacketHeader_bytes hfits,
    Option.bind_eq_bind, Option.bind_some, complete, List.take_left, List.drop_left]
  rw [dif_pos hlen]
  rfl

theorem readPcapHeader_phdr (bs : List UInt8) :
    readPcapHeader (phdr.bytes ++ bs) = some (phdr, bs) := by
  have h1 : phdr.magicNumber < 256 ^ 4 := by decide
  have h2 : phdr.versionMajor < 256 ^ 2 := by decide
  have h3 : phdr.versionMinor < 256 ^ 2 := by decide
  have h4 : phdr.reserved1 < 256 ^ 4 := by decide
  have h5 : phdr.reserved2 < 256 ^ 4 := by decide
  have h6 : phdr.snaplen < 256 ^ 4 := by decide
  have h7 : phdr.linkType < 256 ^ 4 := by decide
  simp only [readPcapHeader, PcapHeader.bytes, List.append_assoc, readUint_toLe h1, readUint_toLe h2,
    readUint_toLe h3, readUint_toLe h4, readUint_toLe h5, readUint_toLe h6, readUint_toLe h7,
    Option.bind_eq_bind, Option.bind_some]
  rfl

theorem bytes_ne_nil (r : Record) : r.bytes ≠ [] := by
  intro h
  have hlen := congrArg List.length h
  simp [Record.bytes, PacketHeader.bytes] at hlen

/-- A file of the global header and records is read back. -/
theorem decode_bytes {rs : List Record} (hfits : ∀ r ∈ rs, r.header.Fits) :
    decode (phdr.bytes ++ rs.flatMap Record.bytes) = some (phdr, rs) := by
  have hrecords : readRecords readRecord (rs.flatMap Record.bytes) = some rs :=
    readRecords_flatMap (fun r hr => readRecord_bytes (hfits r hr)) fun r _ => bytes_ne_nil r
  simp only [decode, readPcapHeader_phdr, hrecords, Option.bind_eq_bind, Option.bind_some]
  rfl

/-! ## A file that ends within the global header -/

theorem phdr_bytes_length : phdr.bytes.length = 24 := by
  simp [PcapHeader.bytes]

theorem readUint_length {n w : Nat} {bs rest : List UInt8} (h : readUint n bs = some (w, rest)) :
    bs.length = n + rest.length := by
  unfold readUint at h
  split_ifs at h with hlen
  obtain ⟨-, rfl⟩ := Prod.mk.inj (Option.some.inj h)
  rw [List.length_drop]
  omega

theorem readPcapHeader_length {bs rest : List UInt8} {header : PcapHeader}
    (h : readPcapHeader bs = some (header, rest)) : bs.length = 24 + rest.length := by
  simp only [readPcapHeader, Option.bind_eq_bind, Option.bind_eq_some_iff] at h
  obtain ⟨⟨_, bs1⟩, h1, ⟨_, bs2⟩, h2, ⟨_, bs3⟩, h3, ⟨_, bs4⟩, h4, ⟨_, bs5⟩, h5, ⟨_, bs6⟩, h6,
    ⟨_, bs7⟩, h7, hret⟩ := h
  split_ifs at hret
  have hrest : bs7.length = rest.length := congrArg List.length (Prod.mk.inj (Option.some.inj hret)).2
  rw [readUint_length h1, readUint_length h2, readUint_length h3, readUint_length h4,
    readUint_length h5, readUint_length h6, readUint_length h7, hrest]
  omega

theorem decode_eq_none_of_length_lt {bs : List UInt8} (h : bs.length < 24) : decode bs = none := by
  have hheader : readPcapHeader bs = none := by
    by_contra hne
    obtain ⟨⟨header, rest⟩, hsome⟩ := Option.ne_none_iff_exists'.1 hne
    have hlen := readPcapHeader_length hsome
    omega
  rw [decode, hheader]
  rfl

end SystemsProgramming.PacketSniffer
