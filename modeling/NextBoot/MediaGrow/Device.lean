import NextBoot.BlockStore
import NextBoot.Results
import NextBoot.Words
import Mathlib.Logic.Function.Iterate

namespace NextBoot.MediaGrow

open Results Words Bytes BlockStore

/-- A run stops on a failed block transfer or on a check that rejects what was read. -/
inductive GrowError
  | io (reason : String)
  | invalid (reason : String)
deriving DecidableEq, Repr

def okOr {α : Type} (o : Option α) (reason : String) : Except GrowError α :=
  match o with
  | some a => .ok a
  | none => .error (.invalid reason)

def rejectIf (bad : Prop) [Decidable bad] (reason : String) : Except GrowError Unit :=
  if bad then .error (.invalid reason) else .ok ()

/-- The medium behind a block protocol, as a byte array in blocks of `blockSize`. -/
structure Media where
  mediaPresent : Bool
  logicalPartition : Bool
  readOnly : Bool
  blockSize : Nat
  lastBlock : Nat
  content : Nat → UInt8

/-- The bytes of `count` blocks from `lba` on. -/
def Media.blocks (m : Media) (lba count : Nat) : List UInt8 :=
  window m.content (lba * m.blockSize) (count * m.blockSize)

/-- A write that starts on a block boundary. -/
def blockWrite (blockSize lba : Nat) (bytes : List UInt8) : Write UInt8 := ⟨lba * blockSize, bytes⟩

def Media.apply (m : Media) (ws : List (Write UInt8)) : Media := { m with content := applyWrites m.content ws }

/-- The medium together with the writes issued so far, oldest first. -/
structure Device where
  media : Media
  log : List (Write UInt8)

abbrev GrowM := ExceptT GrowError (StateM Device)

instance : MonadLift (Except GrowError) GrowM := ⟨fun e => ExceptT.mk (pure e)⟩

def readBlocks (m : Media) (lba blockCount : Nat) : Except GrowError (List UInt8) := do
  let _ ← okOr (checkedMul 64 blockCount m.blockSize) "block read size overflows"
  if lba + blockCount ≤ m.lastBlock + 1 then .ok (m.blocks lba blockCount)
  else .error (.io "failed to read media blocks")

def writeBlocks (lba : Nat) (bytes : List UInt8) (reason : String) : GrowM Unit := do
  let dev ← get
  if lba * dev.media.blockSize + bytes.length ≤ (dev.media.lastBlock + 1) * dev.media.blockSize then
    let w := blockWrite dev.media.blockSize lba bytes
    set (⟨dev.media.apply [w], dev.log ++ [w]⟩ : Device)
  else throw (.io reason)

theorem okOr_eq_ok {α : Type} {o : Option α} {reason : String} {a : α} : okOr o reason = .ok a ↔ o = some a := by
  cases o <;> simp [okOr]

theorem rejectIf_eq_ok {bad : Prop} [Decidable bad] {reason : String} {u : Unit} :
    rejectIf bad reason = .ok u ↔ ¬ bad := by
  unfold rejectIf
  split <;> simp_all

theorem readBlocks_eq_ok {m : Media} {lba blockCount : Nat} {bytes : List UInt8} :
    readBlocks m lba blockCount = .ok bytes ↔
      blockCount * m.blockSize < 2 ^ 64 ∧ lba + blockCount ≤ m.lastBlock + 1 ∧
        bytes = m.blocks lba blockCount := by
  simp only [readBlocks, bind_eq_ok, okOr_eq_ok, checkedMul_eq_some]
  constructor
  · rintro ⟨len, ⟨hlt, rfl⟩, h⟩
    split at h
    · next hle => exact ⟨hlt, hle, (Except.ok.inj h).symm⟩
    · cases h
  · rintro ⟨hlt, hle, rfl⟩
    exact ⟨_, ⟨hlt, rfl⟩, if_pos hle⟩

theorem readBlocks_congr {m m' : Media} {lba blockCount : Nat} (hbs : m'.blockSize = m.blockSize)
    (hlast : m'.lastBlock = m.lastBlock)
    (h : m'.blocks lba blockCount = m.blocks lba blockCount) :
    readBlocks m' lba blockCount = readBlocks m lba blockCount := by
  unfold readBlocks
  rw [hbs, hlast, h]

/-- A computation run on a device: its result and the device it leaves. -/
def eval {α : Type} (x : GrowM α) (dev : Device) : Except GrowError α × Device := x.run.run dev

def Device.push (dev : Device) (w : Write UInt8) : Device := ⟨dev.media.apply [w], dev.log ++ [w]⟩

def Device.pushAll (dev : Device) (ws : List (Write UInt8)) : Device := ⟨dev.media.apply ws, dev.log ++ ws⟩

theorem eval_get (dev : Device) : eval get dev = (.ok dev, dev) := rfl

theorem eval_lift {α : Type} (e : Except GrowError α) (dev : Device) : eval (liftM e) dev = (e, dev) := rfl

theorem eval_bind {α β : Type} (x : GrowM α) (f : α → GrowM β) (dev : Device) :
    eval (x >>= f) dev =
      match eval x dev with
      | (.ok a, dev') => eval (f a) dev'
      | (.error e, dev') => (.error e, dev') := by
  simp only [eval, ExceptT.run_bind, StateT.run_bind]
  rcases StateT.run (ExceptT.run x) dev with ⟨_ | _, _⟩ <;> rfl

theorem eval_writeBlocks {dev : Device} {lba : Nat} {bytes : List UInt8} (reason : String)
    (h : lba * dev.media.blockSize + bytes.length ≤ (dev.media.lastBlock + 1) * dev.media.blockSize) :
    eval (writeBlocks lba bytes reason) dev = (.ok (), dev.push (blockWrite dev.media.blockSize lba bytes)) := by
  rw [writeBlocks, eval_bind, eval_get]
  simp only [if_pos h]
  rfl

@[simp] theorem Device.pushAll_nil (dev : Device) : dev.pushAll [] = dev := by
  simp [Device.pushAll, Media.apply]

theorem Device.pushAll_push (dev : Device) (ws : List (Write UInt8)) (w : Write UInt8) :
    (dev.pushAll ws).push w = dev.pushAll (ws ++ [w]) := by
  simp [Device.pushAll, Device.push, Media.apply, applyWrites_append]

theorem Device.push_eq (dev : Device) (w : Write UInt8) : dev.push w = dev.pushAll [w] := rfl

@[simp] theorem Media.apply_blockSize (m : Media) (ws : List (Write UInt8)) : (m.apply ws).blockSize = m.blockSize :=
  rfl

@[simp] theorem Media.apply_lastBlock (m : Media) (ws : List (Write UInt8)) : (m.apply ws).lastBlock = m.lastBlock :=
  rfl

@[simp] theorem Media.apply_content (m : Media) (ws : List (Write UInt8)) :
    (m.apply ws).content = applyWrites m.content ws := rfl

@[simp] theorem Media.length_blocks (m : Media) (lba count : Nat) : (m.blocks lba count).length = count * m.blockSize := by
  simp [Media.blocks]

theorem Media.slice_blocks (m : Media) {lba count offset len : Nat} (h : offset + len ≤ count * m.blockSize) :
    slice (m.blocks lba count) offset len = some (window m.content (lba * m.blockSize + offset) len) :=
  slice_window m.content _ h

/-- The first blocks of a longer run of blocks. -/
theorem Media.slice_blocks_prefix (m : Media) {lba count count' offset len : Nat} (hle : count' ≤ count)
    (h : offset + len ≤ count' * m.blockSize) :
    slice (m.blocks lba count) offset len = slice (m.blocks lba count') offset len := by
  rw [m.slice_blocks h, m.slice_blocks (h.trans (Nat.mul_le_mul_right _ hle))]

theorem blockWrite_disjoint {blockSize lba count lba' count' : Nat} {bytes : List UInt8}
    (hlen : bytes.length = count * blockSize) (h : lba + count ≤ lba' ∨ lba' + count' ≤ lba) :
    (blockWrite blockSize lba bytes).disjointFrom (lba' * blockSize) (count' * blockSize) := by
  simp only [Write.disjointFrom, Write.stop, blockWrite, hlen, ← Nat.add_mul]
  rcases h with h | h
  · exact .inr (Nat.mul_le_mul_right _ h)
  · exact .inl (Nat.mul_le_mul_right _ h)

theorem Media.blocks_apply_disjoint {m : Media} {ws : List (Write UInt8)} {lba count : Nat}
    (h : ∀ w ∈ ws, w.disjointFrom (lba * m.blockSize) (count * m.blockSize)) :
    (m.apply ws).blocks lba count = m.blocks lba count :=
  window_applyWrites_disjoint h

theorem Media.blocks_apply_self {m : Media} {lba count : Nat} {bytes : List UInt8}
    (hlen : bytes.length = count * m.blockSize) : (m.apply [blockWrite m.blockSize lba bytes]).blocks lba count = bytes := by
  rw [Media.blocks, Media.apply_blockSize, ← hlen]
  exact window_write_self m.content (blockWrite m.blockSize lba bytes)

theorem Media.apply_nil (m : Media) : m.apply [] = m := rfl

theorem Media.apply_append (m : Media) (ws vs : List (Write UInt8)) : m.apply (ws ++ vs) = (m.apply ws).apply vs := by
  simp [Media.apply, applyWrites_append]

/-- Blocks hold the last write to them. -/
theorem Media.blocks_apply_written {m : Media} (ws : List (Write UInt8)) {vs : List (Write UInt8)} {lba count : Nat}
    {bytes : List UInt8} (hlen : bytes.length = count * m.blockSize)
    (h : ∀ v ∈ vs, v.disjointFrom (lba * m.blockSize) (count * m.blockSize)) :
    (m.apply (ws ++ blockWrite m.blockSize lba bytes :: vs)).blocks lba count = bytes := by
  rw [List.append_cons, Media.apply_append, Media.blocks_apply_disjoint (by simpa using h), Media.apply_append]
  exact Media.blocks_apply_self (m := m.apply ws) hlen

/-- Blocks that one write of a list goes to, after any number of its writes. -/
theorem Media.blocks_apply_take {m : Media} (pre post : List (Write UInt8)) {lba count : Nat} {bytes : List UInt8}
    (hlen : bytes.length = count * m.blockSize)
    (hpre : ∀ v ∈ pre, v.disjointFrom (lba * m.blockSize) (count * m.blockSize))
    (hpost : ∀ v ∈ post, v.disjointFrom (lba * m.blockSize) (count * m.blockSize)) (k : Nat) :
    (m.apply ((pre ++ blockWrite m.blockSize lba bytes :: post).take k)).blocks lba count =
      if k ≤ pre.length then m.blocks lba count else bytes := by
  rw [List.take_append]
  split
  · next hk =>
      rw [Nat.sub_eq_zero_of_le hk, List.take_zero, List.append_nil]
      exact Media.blocks_apply_disjoint fun v hv => hpre v (List.mem_of_mem_take hv)
  · next hk =>
      obtain ⟨n, hn⟩ : ∃ n, k - pre.length = n + 1 := ⟨k - pre.length - 1, by omega⟩
      rw [hn, List.take_succ_cons]
      exact Media.blocks_apply_written _ hlen fun v hv => hpost v (List.mem_of_mem_take hv)

def readLeU32 (bytes : List UInt8) (offset : Nat) : Option Nat := readLe 4 bytes offset

def readLeU64 (bytes : List UInt8) (offset : Nat) : Option Nat := readLe 8 bytes offset

def writeLeU32 (bytes : List UInt8) (offset value : Nat) : Except GrowError (List UInt8) :=
  okOr (writeLe 4 bytes offset value) "write is out of bounds"

def writeLeU64 (bytes : List UInt8) (offset value : Nat) : Except GrowError (List UInt8) :=
  okOr (writeLe 8 bytes offset value) "write is out of bounds"

theorem writeLeU32_eq_ok {bytes out : List UInt8} {offset value : Nat} :
    writeLeU32 bytes offset value = .ok out ↔
      offset + 4 ≤ bytes.length ∧ out = splice bytes offset (toLeBytes 4 value) := by
  rw [writeLeU32, okOr_eq_ok, writeLe_eq_some]

theorem writeLeU64_eq_ok {bytes out : List UInt8} {offset value : Nat} :
    writeLeU64 bytes offset value = .ok out ↔
      offset + 8 ≤ bytes.length ∧ out = splice bytes offset (toLeBytes 8 value) := by
  rw [writeLeU64, okOr_eq_ok, writeLe_eq_some]

def divRoundUp (value divisor : Nat) : Nat :=
  if divisor = 0 then 0 else saturatingAdd 64 value (divisor - 1) / divisor

def crcBit (crc : UInt32) : UInt32 := (crc >>> 1) ^^^ (0xedb88320 &&& (0 - (crc &&& 1)))

def crcByte (crc : UInt32) (byte : UInt8) : UInt32 := crcBit^[8] (crc ^^^ byte.toUInt32)

def crc32 (bytes : List UInt8) : Nat := (~~~ bytes.foldl crcByte 0xffffffff).toNat

def rotateRightOne (x : UInt32) : UInt32 := (x >>> 1) ||| (x <<< 31)

/-- One byte of the exFAT boot checksum; VolumeFlags and PercentInUse are skipped. -/
def checksumByte (checksum : UInt32) (entry : UInt8 × Nat) : UInt32 :=
  if entry.2 = 106 ∨ entry.2 = 107 ∨ entry.2 = 112 then checksum
  else rotateRightOne checksum + entry.1.toUInt32

def exfatBootChecksum (bytes : List UInt8) : Nat := (bytes.zipIdx.foldl checksumByte 0).toNat

/-- The checksum sector repeats the checksum in every four bytes; a short rest stays zero. -/
def checksumSector (blockSize checksum : Nat) : List UInt8 :=
  (List.replicate (blockSize / 4) (toLeBytes 4 checksum)).flatten ++ List.replicate (blockSize % 4) 0

def updateExfatBootChecksum (bootRegion : List UInt8) (blockSize : Nat) : Except GrowError (List UInt8) := do
  rejectIf (bootRegion.length < 11 * blockSize + blockSize) "truncated exFAT boot region"
  let input ← okOr (slice bootRegion 0 (11 * blockSize)) "truncated exFAT boot checksum input"
  okOr (copyFromSlice bootRegion (11 * blockSize) (checksumSector blockSize (exfatBootChecksum input)))
    "truncated exFAT checksum sector"

theorem length_checksumSector (blockSize checksum : Nat) : (checksumSector blockSize checksum).length = blockSize := by
  simp only [checksumSector, List.length_append, List.length_flatten, List.map_replicate,
    List.sum_replicate_nat, length_toLeBytes, List.length_replicate]
  omega

theorem updateExfatBootChecksum_eq {bootRegion : List UInt8} {blockSize : Nat}
    (hlen : bootRegion.length = 12 * blockSize) :
    updateExfatBootChecksum bootRegion blockSize = .ok (splice bootRegion (11 * blockSize)
      (checksumSector blockSize (exfatBootChecksum (bootRegion.take (11 * blockSize))))) := by
  have hinput : slice bootRegion 0 (11 * blockSize) = some (bootRegion.take (11 * blockSize)) := by
    rw [slice_eq_some (by omega), List.drop_zero]
  simp only [updateExfatBootChecksum, bind_eq_ok, rejectIf_eq_ok, okOr_eq_ok, copyFromSlice_eq_some]
  exact ⟨(), by omega, _, hinput, by rw [length_checksumSector]; omega, rfl⟩

end NextBoot.MediaGrow
