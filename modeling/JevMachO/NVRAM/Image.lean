import JevMachO.NVRAM.Variables

/-! A whole NVRAM image: the Apple header, and the common and the system partition with their
variables, each filled up to its size in blocks. What is laid out is read back, and a lookup in
one partition never ends in the other. -/
namespace JevMachO
open Lib

namespace CHRPNVRAMHeader

/-- `name()`: the field is taken to be NUL-terminated. -/
def name (mem : Bytes) (hdr : ℕ) : Exec Bytes := cstr mem (hdr + 4)

end CHRPNVRAMHeader

namespace NVRAMPartition

def name (mem : Bytes) (part : ℕ) : Exec Bytes := CHRPNVRAMHeader.name mem part

def sizeBytes (mem : Bytes) (part : ℕ) : Exec ℕ := CHRPNVRAMHeader.sizeBytes mem part

/-- The value of a variable, as its callers read it. -/
def valueNamed (mem : Bytes) (part : ℕ) (name : Bytes) : Exec (Option Bytes) := do
  match ← NVRAM.varValue mem (← varNamed mem part name) with
  | none => return none
  | some p => return some (← cstr mem p)

/-- What follows the first `=` of the first string with the name. -/
def valueOf (strs : List Bytes) (name : Bytes) : Option Bytes :=
  (strs.find? fun s => nameOf s == name).map (·.drop (name.length + 1))

/-- The content of a partition: its header, and variables that fit its size. -/
structure Content where
  sig : UInt8
  chksum : UInt8
  len : UInt16
  nameBuf : Bytes
  strs : List Bytes
  length_nameBuf : nameBuf.length = 12
  packable : ∀ s ∈ strs, Packable s
  ne_nil : strs ≠ []
  fits : CHRPNVRAMHeader.sizeofHeader + (packed strs).length ≤ len.toNat * 0x10

namespace Content
variable (c : Content)

def header : Bytes := [c.sig, c.chksum] ++ leBytes 2 c.len.toNat ++ c.nameBuf

def bytes : Bytes :=
  c.header ++ packed c.strs ++ List.replicate
    (c.len.toNat * 0x10 - (CHRPNVRAMHeader.sizeofHeader + (packed c.strs).length)) 0

theorem length_header : c.header.length = CHRPNVRAMHeader.sizeofHeader := by
  simp [header, c.length_nameBuf, CHRPNVRAMHeader.sizeofHeader]

theorem length_bytes : c.bytes.length = c.len.toNat * 0x10 := by
  have hfits := c.fits
  rw [bytes, List.length_append, List.length_append, c.length_header, List.length_replicate]
  omega

end Content

variable {mem : Bytes} {part o : ℕ} {strs : List Bytes} {c : Content}

/-- Where the fields of a partition are. -/
theorem at_fields (h : At mem o c.bytes) : At mem (o + 2) (leBytes 2 c.len.toNat) ∧
    At mem (o + 4) c.nameBuf ∧ At mem (CHRPNVRAMHeader.data o) (packed c.strs) := by
  rw [Content.bytes, at_append, at_append] at h
  obtain ⟨⟨hhdr, hvars⟩, -⟩ := h
  rw [c.length_header] at hvars
  rw [Content.header, at_append, at_append] at hhdr
  exact ⟨hhdr.1.2, by simpa using hhdr.2, hvars⟩

theorem sizeBytes_eq (h : At mem o c.bytes) : sizeBytes mem o = .ok (c.len.toNat * 0x10) := by
  have hload := load_of_at (at_fields h).1 (n := 2) (by simp) (by simp [leBytes])
  have hlt : c.len.toNat < 256 ^ 2 := c.len.toNat_lt
  rw [sizeBytes, CHRPNVRAMHeader.sizeBytes, CHRPNVRAMHeader.sizeBlocks, hload]
  simp only [ok_bind, pure_eq_ok, ofLE_leBytes, Nat.mod_eq_of_lt hlt]

/-- A name field without a NUL runs on into the variables. -/
theorem name_eq (h : At mem o c.bytes) :
    name mem o = .ok (untilNul (c.nameBuf ++ packed c.strs)) := by
  obtain ⟨-, hname, hvars⟩ := at_fields h
  have hdata : CHRPNVRAMHeader.data o = o + 4 + c.nameBuf.length := by
    rw [c.length_nameBuf]
    rfl
  have hboth : At mem (o + 4) (c.nameBuf ++ packed c.strs) :=
    at_append.mpr ⟨hname, hdata ▸ hvars⟩
  exact cstr_of_at hboth (by simp [packed])

theorem holdsVars (h : At mem o c.bytes) : HoldsVars mem o c.strs :=
  ⟨(at_fields h).2.2, c.packable, c.ne_nil⟩

/-- A lookup gives the value of the first variable with the name. -/
theorem HoldsVars.valueNamed_eq (h : HoldsVars mem part strs) {k : Bytes} (hk : VarName k) :
    valueNamed mem part k = .ok (valueOf strs k) := by
  unfold valueNamed valueOf
  rcases first_or_none k strs with hnone | ⟨pre, s, post, rfl, hs, hpre⟩
  · rw [h.varNamed_of_none hnone, List.find?_eq_none.mpr (by simpa using hnone)]
    rfl
  · obtain ⟨v, rfl⟩ := (nameOf_eq_iff hk).mp hs
    obtain ⟨hvar, hcstr⟩ := h.varNamed_of_first hs hpre
    obtain ⟨hval, hv⟩ := varValue_eq hk.no_eq hcstr
    have hskip : pre.find? (fun s => nameOf s == k) = none :=
      List.find?_eq_none.mpr (by simpa using hpre)
    rw [hvar, ok_bind, hval, ok_bind]
    dsimp only
    rw [hv, ok_bind, List.find?_append, hskip, Option.none_or,
      List.find?_cons_of_pos (by simpa using hs), Option.map_some]
    simp

end NVRAMPartition

/-- The content of an image. Of the Apple header only the place it takes matters. -/
structure NVRAMContent where
  appleHdr : Bytes
  common : NVRAMPartition.Content
  system : NVRAMPartition.Content
  length_appleHdr : appleHdr.length = NVRAM.sizeofAppleHeader

namespace NVRAMContent
variable (img : NVRAMContent)

def bytes : Bytes := img.appleHdr ++ (img.common.bytes ++ img.system.bytes)

theorem length_bytes : img.bytes.length =
    NVRAM.sizeofAppleHeader + (img.common.len.toNat * 0x10 + img.system.len.toNat * 0x10) := by
  rw [bytes, List.length_append, List.length_append, img.length_appleHdr,
    img.common.length_bytes, img.system.length_bytes]

/-- The partitions of an image at some offset. -/
def proxyData (o : ℕ) : NVRAMProxyData :=
  ⟨o, o + NVRAM.sizeofAppleHeader, o + NVRAM.sizeofAppleHeader + img.common.len.toNat * 0x10⟩

variable {img} {mem : Bytes} {o : ℕ}

theorem at_partitions (h : At mem o img.bytes) :
    At mem (img.proxyData o).commonPart img.common.bytes ∧
      At mem (img.proxyData o).systemPart img.system.bytes := by
  rw [bytes, at_append, at_append, img.length_appleHdr, img.common.length_bytes] at h
  exact h.2

theorem extractProxyData_eq (h : At mem o img.bytes) :
    NVRAM.extractProxyData mem o = .ok (img.proxyData o) := by
  have hsize : CHRPNVRAMHeader.sizeBytes mem (o + NVRAM.sizeofAppleHeader) = _ :=
    NVRAMPartition.sizeBytes_eq (at_partitions h).1
  rw [NVRAM.extractProxyData, hsize]
  rfl

/-- A partition reads back as its content. -/
structure ReadsBack (mem : Bytes) (part : ℕ) (c : NVRAMPartition.Content) : Prop where
  name : NVRAMPartition.name mem part = .ok (untilNul (c.nameBuf ++ packed c.strs))
  size : NVRAMPartition.sizeBytes mem part = .ok (c.len.toNat * 0x10)
  vars : NVRAMPartition.varStrings mem part = .ok c.strs
  value : ∀ k, NVRAMPartition.VarName k →
    NVRAMPartition.valueNamed mem part k = .ok (NVRAMPartition.valueOf c.strs k)

theorem content_readsBack {part : ℕ} {c : NVRAMPartition.Content} (h : At mem part c.bytes) :
    ReadsBack mem part c where
  name := NVRAMPartition.name_eq h
  size := NVRAMPartition.sizeBytes_eq h
  vars := NVRAMPartition.varStrings_eq (NVRAMPartition.at_fields h).2.2 c.packable c.ne_nil
  value _ hk := (NVRAMPartition.holdsVars h).valueNamed_eq hk

/-- An image reads back as its content wherever it is in memory. -/
theorem extractProxyData_readsBack (h : At mem o img.bytes) :
    ∃ data, NVRAM.extractProxyData mem o = .ok data ∧
      ReadsBack mem data.commonPart img.common ∧ ReadsBack mem data.systemPart img.system :=
  ⟨_, extractProxyData_eq h, content_readsBack (at_partitions h).1,
    content_readsBack (at_partitions h).2⟩

/-- A partition of six blocks. -/
def someContent : NVRAMPartition.Content where
  sig := 0x70
  chksum := 0
  len := 6
  nameBuf := ascii ['c', 'o', 'm', 'm', 'o', 'n'] ++ List.replicate 6 0
  strs := NVRAMPartition.someVars
  length_nameBuf := by decide
  packable := by decide
  ne_nil := by decide
  fits := by decide

def someImage : NVRAMContent where
  appleHdr := List.replicate NVRAM.sizeofAppleHeader 0
  common := someContent
  system := someContent
  length_appleHdr := by decide

theorem extractProxyData_readsBack_someImage :
    ∃ data, NVRAM.extractProxyData ([0xAA] ++ someImage.bytes) 1 = .ok data ∧
      ReadsBack ([0xAA] ++ someImage.bytes) data.commonPart someContent ∧
      ReadsBack ([0xAA] ++ someImage.bytes) data.systemPart someContent :=
  have hat : At ([0xAA] ++ someImage.bytes) 1 someImage.bytes := by decide
  extractProxyData_readsBack hat

end NVRAMContent
end JevMachO
