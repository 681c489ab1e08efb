import NextBoot.Fs.Detect
import NextBoot.Fs.Fat32Directory
import NextBoot.Fs.ExFatDirectory
import NextBoot.Fs.Iso9660

namespace NextBoot.Fs

open Bytes Faults Outcome

/-- Both bytes of the boot signature are in the buffer, or the first one is and is wrong, or it is not looked for. -/
def SignatureInside (data : List UInt8) (least : Nat) : Prop :=
  data.length < least ∨ 511 < data.length ∨ data.length = 511 ∧ data[510]? ≠ some 0x55

/-- Where detecting a file system, opening it and listing its root never faults, on a device of whole sectors. -/
theorem loading_noFault (data : List UInt8) (granted : Nat → Bool) (io : BlockIo) (hblock : io.blockSize % 512 = 0) :
    ((Detect.detectFsType data).NoFault ↔ SignatureInside data 510) ∧
    ((Detect.isFat32 data).NoFault ↔ SignatureInside data 90) ∧
    ((∀ fuel, (Fat32.listRoot granted fuel io).NoFault) ↔
      (granted io.blockSize = true → ∀ boot, io.readFullBlocks 0 io.blockSize = .ok boot →
        ∀ b, Fat32BootSector.ofBytes boot = some b → Fat32.SoundGeometry io b)) ∧
    ((∀ fuel, (ExFat.listRoot granted fuel io).NoFault) ↔
      (granted io.blockSize = true → ∀ boot, io.readFullBlocks 0 io.blockSize = .ok boot →
        ∀ b, ExFatBootSector.ofBytes boot = some b → ExFat.SoundGeometry granted io b)) ∧
    ((Iso9660.listRoot granted io).NoFault ↔
      ∀ fs, Iso9660.openChecked granted io = value fs → Iso9660.SoundDirectory granted fs fs.rootLba fs.rootSize) :=
  ⟨Detect.noFault_detectFsType, Detect.noFault_isFat32, Fat32.noFault_listRoot hblock, ExFat.noFault_listRoot hblock,
    Iso9660.noFault_listRoot⟩

def blankDevice : BlockIo where
  blockSize := 512
  totalBlocks := 4
  bytes := fun _ => 0
  blockSize_lt := Words.sector_lt_u32
  totalBlocks_lt := Words.four_lt_u64

theorem blankDevice_noFault :
    (Detect.detectFsType [0, 0, 0]).NoFault ∧ ∀ fuel, (Fat32.listRoot (fun _ => true) fuel blankDevice).NoFault := by
  obtain ⟨hdetect, -, hfat32, -⟩ := loading_noFault [0, 0, 0] (fun _ => true) blankDevice rfl
  have hshort : SignatureInside [0, 0, 0] 510 := by
    rw [SignatureInside, List.length_cons, List.length_cons, List.length_cons, List.length_nil]
    exact Or.inl (by omega)
  refine ⟨hdetect.mpr hshort, ?_⟩
  rw [hfat32]
  intro _ boot hread b hb hzero
  refine absurd ?_ hzero
  have hboot : boot = BlockStore.window blankDevice.bytes 0 512 := (readFullBlocks_eq_ok.mp hread).2.2.symm
  have hfield : (Fat32BootSector.ofBytes (BlockStore.window blankDevice.bytes 0 512)).map Fat32BootSector.bytesPerSector =
      some 0 := by decide +kernel
  rw [← hboot, hb] at hfield
  exact Option.some.inj hfield

/-- A boot sector of 512-byte sectors with no sectors in a cluster, 100 sectors in all. -/
def noClusterDevice : BlockIo where
  blockSize := 512
  totalBlocks := 100
  bytes := fun i => if i = 12 then 2 else if i = 32 then 100 else 0
  blockSize_lt := Words.sector_lt_u32
  totalBlocks_lt := by decide

/-- Opening it divides by zero. -/
theorem noClusterDevice_faults : ¬ (Fat32.listRoot (fun _ => true) 1 noClusterDevice).NoFault := by
  decide +kernel

end NextBoot.Fs
