import NextBoot.Lifetimes

namespace NextBoot.Boot

open Lifetimes

inductive Guid
  | blockIo
  | blockIo2
  | devicePath
  | simpleFileSystem
  | loadFile
  | loadFile2
deriving DecidableEq, Repr

inductive Status
  | unsupported
  | deviceError
  | compromisedData
  | other (code : Nat)
deriving DecidableEq, Repr

/-- A place in an allocation. -/
structure Pointer where
  block : Nat
  offset : Nat
deriving DecidableEq, Repr

@[ext]
structure Interface where
  handle : Nat
  guid : Guid
  pointer : Pointer
deriving DecidableEq, Repr

def Interface.block (i : Interface) : Nat := i.pointer.block

/-- What becomes of each call into the firmware, and the handle it makes when it is given none. -/
structure Firmware where
  outcome : Nat → Except Status Unit
  newHandle : Nat → Nat

/-- A boot attempt; its own state is the flag `cleanup_ok`. -/
abbrev Attempt := Prog Interface Bool

variable (fw : Firmware)

/-- A call that installs and removes none of the interfaces: it reads the image, or starts another program. -/
def outside : Attempt (Except Status Unit) := call fw.outcome

def installProtocolInterface (handle : Option Nat) (guid : Guid) (pointer : Pointer) : Attempt (Except Status Nat) :=
  orReturn (call fun n => (fw.outcome n).map fun _ => handle.getD (fw.newHandle n)) fun handle => do
    record (.installed ⟨handle, guid, pointer⟩)
    pure (.ok handle)

def uninstallProtocolInterface (handle : Nat) (guid : Guid) (pointer : Pointer) : Attempt (Except Status Unit) :=
  orReturn (call fw.outcome) fun _ => do
    record (.removed ⟨handle, guid, pointer⟩)
    pure (.ok ())

/-- Every interface is tried; what is returned is the last error. -/
def uninstallEach (handle : Nat) : List (Guid × Pointer) → Option Status → Attempt (Option Status)
  | [], failure => pure failure
  | (guid, pointer) :: rest, failure => do
      match ← uninstallProtocolInterface fw handle guid pointer with
      | .ok () => uninstallEach handle rest failure
      | .error error => uninstallEach handle rest (some error)

structure RegisteredVirtualBlockIo where
  handle : Nat
  protocol : Nat
  devicePath : Nat

namespace RegisteredVirtualBlockIo

def protocolPtr (protocol : Nat) : Guid × Pointer := (.blockIo, ⟨protocol, 0⟩)

def blockIo2Ptr (protocol : Nat) : Guid × Pointer := (.blockIo2, ⟨protocol, 48⟩)

def devicePathPtr (devicePath : Nat) : Guid × Pointer := (.devicePath, ⟨devicePath, 0⟩)

def interfaces (r : RegisteredVirtualBlockIo) : List (Guid × Pointer) :=
  [devicePathPtr r.devicePath, blockIo2Ptr r.protocol, protocolPtr r.protocol]

/-- On a failure both allocations are leaked. -/
def uninstall (r : RegisteredVirtualBlockIo) : Attempt (Except Status Unit) := do
  match ← uninstallEach fw r.handle r.interfaces none with
  | some error => pure (.error error)
  | none => do
      free r.protocol
      free r.devicePath
      pure (.ok ())

end RegisteredVirtualBlockIo

namespace VirtualBlockIoProtocol

/-- The loop of `install`: `installed` has the interfaces that are in place, the last one first. -/
def installEach (protocol devicePath : Nat) : Option Nat → List (Guid × Pointer) → List (Guid × Pointer) →
    Attempt (Except Status (Option Nat))
  | handle, _, [] => pure (.ok handle)
  | handle, installed, (guid, pointer) :: rest => do
      match ← installProtocolInterface fw handle guid pointer with
      | .ok handle => installEach protocol devicePath (some handle) ((guid, pointer) :: installed) rest
      | .error error => do
          match ← handle.elim (pure none) fun handle => uninstallEach fw handle installed none with
          | some _ => pure (.error .compromisedData)
          | none => do
              free devicePath
              free protocol
              pure (.error error)

def install : Attempt (Except Status RegisteredVirtualBlockIo) := do
  let protocol ← allocate
  let devicePath ← allocate
  let interfaces := [RegisteredVirtualBlockIo.protocolPtr protocol, RegisteredVirtualBlockIo.blockIo2Ptr protocol,
    RegisteredVirtualBlockIo.devicePathPtr devicePath]
  orReturn (installEach fw protocol devicePath none [] interfaces) fun
    | some handle => pure (.ok ⟨handle, protocol, devicePath⟩)
    | none => do
        free devicePath
        free protocol
        pure (.error .deviceError)

end VirtualBlockIoProtocol

structure RegisteredIsoSimpleFileSystem where
  protocol : Nat

namespace RegisteredIsoSimpleFileSystem

def protocolPtr (r : RegisteredIsoSimpleFileSystem) : Pointer := ⟨r.protocol, 0⟩

def interfaces (r : RegisteredIsoSimpleFileSystem) : List (Guid × Pointer) := [(.simpleFileSystem, r.protocolPtr)]

def uninstall (r : RegisteredIsoSimpleFileSystem) (handle : Nat) : Attempt (Except Status Unit) :=
  orReturn (uninstallProtocolInterface fw handle .simpleFileSystem r.protocolPtr) fun _ => do
    free r.protocol
    pure (.ok ())

end RegisteredIsoSimpleFileSystem

def IsoSimpleFileSystemProtocol.install (handle : Nat) : Attempt (Except Status RegisteredIsoSimpleFileSystem) := do
  let protocol ← allocate
  let r : RegisteredIsoSimpleFileSystem := ⟨protocol⟩
  match ← installProtocolInterface fw (some handle) .simpleFileSystem r.protocolPtr with
  | .ok _ => pure (.ok r)
  | .error error => do
      free protocol
      pure (.error error)

structure RegisteredPreloadedLoadFile where
  protocol : Nat

namespace RegisteredPreloadedLoadFile

def loadFilePtr (r : RegisteredPreloadedLoadFile) : Pointer := ⟨r.protocol, 0⟩

def loadFile2Ptr (r : RegisteredPreloadedLoadFile) : Pointer := ⟨r.protocol, 8⟩

def interfaces (r : RegisteredPreloadedLoadFile) : List (Guid × Pointer) :=
  [(.loadFile, r.loadFilePtr), (.loadFile2, r.loadFile2Ptr)]

def uninstall (r : RegisteredPreloadedLoadFile) (handle : Nat) : Attempt (Except Status Unit) := do
  let first ← uninstallProtocolInterface fw handle .loadFile r.loadFilePtr
  let second ← uninstallProtocolInterface fw handle .loadFile2 r.loadFile2Ptr
  match first, second with
  | .ok (), .ok () => do
      free r.protocol
      pure (.ok ())
  | .error error, _ => pure (.error error)
  | .ok (), .error error => pure (.error error)

end RegisteredPreloadedLoadFile

def PreloadedLoadFileProtocol.install (handle : Nat) : Attempt (Except Status RegisteredPreloadedLoadFile) := do
  let protocol ← allocate
  let r : RegisteredPreloadedLoadFile := ⟨protocol⟩
  match ← installProtocolInterface fw (some handle) .loadFile r.loadFilePtr with
  | .error error => do
      free protocol
      pure (.error error)
  | .ok _ => do
      match ← installProtocolInterface fw (some handle) .loadFile2 r.loadFile2Ptr with
      | .ok _ => pure (.ok r)
      | .error error => do
          match ← uninstallProtocolInterface fw handle .loadFile r.loadFilePtr with
          | .error _ => pure (.error .compromisedData)
          | .ok () => do
              free protocol
              pure (.error error)

structure RegisteredLinuxInitrdLoadFile2 where
  handle : Nat
  protocol : Nat
  devicePath : Nat

namespace RegisteredLinuxInitrdLoadFile2

def loadFile2Ptr (protocol : Nat) : Pointer := ⟨protocol, 0⟩

def devicePathPtr (devicePath : Nat) : Pointer := ⟨devicePath, 0⟩

def interfaces (r : RegisteredLinuxInitrdLoadFile2) : List (Guid × Pointer) :=
  [(.devicePath, devicePathPtr r.devicePath), (.loadFile2, loadFile2Ptr r.protocol)]

/-- Each allocation is kept when the firmware does not let go of its interface. -/
def uninstall (r : RegisteredLinuxInitrdLoadFile2) : Attempt (Except Status Unit) := do
  let pathResult ← uninstallProtocolInterface fw r.handle .devicePath (devicePathPtr r.devicePath)
  let protocolResult ← uninstallProtocolInterface fw r.handle .loadFile2 (loadFile2Ptr r.protocol)
  match pathResult, protocolResult with
  | .ok (), .ok () => do
      free r.protocol
      free r.devicePath
      pure (.ok ())
  | .error error, .ok () => do
      free r.protocol
      pure (.error error)
  | .ok (), .error error => do
      free r.devicePath
      pure (.error error)
  | .error error, .error _ => pure (.error error)

end RegisteredLinuxInitrdLoadFile2

def LinuxInitrdLoadFile2Protocol.install : Attempt (Except Status RegisteredLinuxInitrdLoadFile2) := do
  let protocol ← allocate
  let loadFile2 := RegisteredLinuxInitrdLoadFile2.loadFile2Ptr protocol
  match ← installProtocolInterface fw none .loadFile2 loadFile2 with
  | .error error => do
      free protocol
      pure (.error error)
  | .ok handle => do
      let devicePath ← allocate
      match ← installProtocolInterface fw (some handle) .devicePath
        (RegisteredLinuxInitrdLoadFile2.devicePathPtr devicePath) with
      | .ok _ => pure (.ok ⟨handle, protocol, devicePath⟩)
      | .error error => do
          match ← uninstallProtocolInterface fw handle .loadFile2 loadFile2 with
          | .error _ => do
              free devicePath
              pure (.error .compromisedData)
          | .ok () => do
              free devicePath
              free protocol
              pure (.error error)

section specs

/-- The interfaces that a handle has of a list. -/
def entriesAt (handle : Nat) (interfaces : List (Guid × Pointer)) : Set Interface :=
  {i | i.handle = handle ∧ (i.guid, i.pointer) ∈ interfaces}

variable {fw : Firmware} {α : Type} {entries : Set Interface} {floor handle : Nat} {cleanupOk : Bool}
variable {guid : Guid} {pointer : Pointer} {interfaces : List (Guid × Pointer)} {Q : α → Session Interface Bool → Prop}

abbrev Held (entries : Set Interface) (floor : Nat) (cleanupOk : Bool) : Session Interface Bool → Prop :=
  Within Interface.block entries floor cleanupOk

theorem insert_entriesAt : insert ⟨handle, guid, pointer⟩ (entries ∪ entriesAt handle interfaces) =
    entries ∪ entriesAt handle ((guid, pointer) :: interfaces) := by
  ext ⟨h, g, p⟩
  simp only [entriesAt, Set.mem_insert_iff, Set.mem_union, Set.mem_ofPred_eq, List.mem_cons, Interface.mk.injEq,
    Prod.mk.injEq]
  tauto

theorem entriesAt_diff : (entries ∪ entriesAt handle ((guid, pointer) :: interfaces)) \ {⟨handle, guid, pointer⟩} ⊆
    entries ∪ entriesAt handle interfaces := by
  rw [← insert_entriesAt, Set.sdiff_singleton_subset_iff]

theorem triple_install_bind {target : Option Nat} {f : Except Status Nat → Attempt α}
    (hok : ∀ handle, (∀ h, target = some h → handle = h) →
      Triple (Held (insert ⟨handle, guid, pointer⟩ entries) floor cleanupOk) (f (.ok handle)) Q)
    (herror : ∀ error, Triple (Held entries floor cleanupOk) (f (.error error)) Q) :
    Triple (Held entries floor cleanupOk) (installProtocolInterface fw target guid pointer >>= f) Q := by
  rw [installProtocolInterface, orReturn, Lifetimes.bind_assoc]
  refine Triple.call_bind fun number => ?_
  cases fw.outcome number with
  | error error => exact herror error
  | ok _ => exact Triple.install.bind fun _ => hok _ (by rintro h rfl; rfl)

theorem triple_uninstall_bind {f : Except Status Unit → Attempt α}
    (hok : Triple (Held (entries \ {⟨handle, guid, pointer⟩}) floor cleanupOk) (f (.ok ())) Q)
    (herror : ∀ error, Triple (Held entries floor cleanupOk) (f (.error error)) Q) :
    Triple (Held entries floor cleanupOk) (uninstallProtocolInterface fw handle guid pointer >>= f) Q := by
  rw [uninstallProtocolInterface, orReturn, Lifetimes.bind_assoc]
  refine Triple.call_bind fun number => ?_
  cases fw.outcome number with
  | error error => exact herror error
  | ok _ => exact Triple.remove.bind fun _ => hok

theorem entriesAt_cons_subset {interface : Guid × Pointer} :
    entries ∪ entriesAt handle interfaces ⊆ entries ∪ entriesAt handle (interface :: interfaces) :=
  Set.union_subset_union_right _ fun _ hi => ⟨hi.1, List.mem_cons_of_mem _ hi.2⟩

theorem union_entriesAt_nil : entries ∪ entriesAt handle [] = entries := by
  refine Set.union_eq_self_of_subset_right ?_
  rintro i ⟨-, hi⟩
  cases hi

/-- How an `uninstall` ends: the interfaces are gone, or it reports an error. -/
def Released (entries removed : Set Interface) (floor : Nat) (cleanupOk : Bool) :
    Except Status Unit → Session Interface Bool → Prop
  | .ok (), s => Held entries floor cleanupOk s
  | .error _, s => Held (entries ∪ removed) floor cleanupOk s

/-- How an `install` that fails ends: nothing of it is left, or it reports compromised data. -/
def Refused (entries left : Set Interface) (floor : Nat) (cleanupOk : Bool) (error : Status) (s : Session Interface Bool) :
    Prop := Held entries floor cleanupOk s ∨ error = .compromisedData ∧ Held (entries ∪ left) floor cleanupOk s

theorem triple_uninstallEach {failure : Option Status} :
    Triple (Held (entries ∪ entriesAt handle interfaces) floor cleanupOk) (uninstallEach fw handle interfaces failure)
      fun result s => Held (entries ∪ entriesAt handle interfaces) floor cleanupOk s ∧
        (result = none → failure = none ∧ Held entries floor cleanupOk s) := by
  induction interfaces generalizing entries failure with
  | nil =>
      refine Triple.pure fun s hs => ⟨hs, fun hnone => ⟨hnone, hs.mono ?_ le_rfl⟩⟩
      rintro i (hi | ⟨-, hi⟩)
      · exact hi
      · cases hi
  | cons interface rest ih =>
      obtain ⟨guid, pointer⟩ := interface
      refine triple_uninstall_bind ?_ fun error => ?_
      · refine Triple.strengthen (fun s hs => hs.mono entriesAt_diff le_rfl) (ih.weaken fun result s hs => ?_)
        exact ⟨hs.1.mono entriesAt_cons_subset le_rfl, hs.2⟩
      · rw [← insert_entriesAt, ← Set.insert_union]
        exact ih.weaken fun result s hs => ⟨hs.1, fun hnone => (Option.some_ne_none _ (hs.2 hnone).1).elim⟩

theorem RegisteredVirtualBlockIo.triple_uninstall {r : RegisteredVirtualBlockIo}
    (h : ∀ i ∈ entries, ∀ a ∈ r.interfaces, i.block ≠ a.2.block) :
    Triple (Held (entries ∪ entriesAt r.handle r.interfaces) floor cleanupOk) (r.uninstall fw)
      (Released entries (entriesAt r.handle r.interfaces) floor cleanupOk) := by
  have hpath : ∀ i ∈ entries, i.block ≠ r.devicePath := fun i hi => h i hi (devicePathPtr _) List.mem_cons_self
  have hprotocol : ∀ i ∈ entries, i.block ≠ r.protocol := fun i hi => h i hi (protocolPtr _) (by simp [interfaces])
  refine triple_uninstallEach.bind fun failure => ?_
  cases failure with
  | some error => exact Triple.pure fun s hs => hs.1
  | none =>
      refine Triple.strengthen (fun s hs => (hs.2 rfl).2) ((Triple.free hprotocol).bind fun _ => ?_)
      exact (Triple.free hpath).bind fun _ => Triple.pure fun s hs => hs

theorem RegisteredIsoSimpleFileSystem.triple_uninstall {r : RegisteredIsoSimpleFileSystem}
    (h : ∀ i ∈ entries, ∀ a ∈ r.interfaces, i.block ≠ a.2.block) :
    Triple (Held (entries ∪ entriesAt handle r.interfaces) floor cleanupOk) (r.uninstall fw handle)
      (Released entries (entriesAt handle r.interfaces) floor cleanupOk) := by
  refine triple_uninstall_bind ?_ fun error => Triple.pure fun s hs => hs
  refine Triple.strengthen (fun s hs => hs.mono entriesAt_diff le_rfl) ?_
  rw [union_entriesAt_nil]
  exact (Triple.free fun i hi => h i hi _ List.mem_cons_self).bind fun _ => Triple.pure fun s hs => hs

theorem RegisteredPreloadedLoadFile.triple_uninstall {r : RegisteredPreloadedLoadFile}
    (h : ∀ i ∈ entries, ∀ a ∈ r.interfaces, i.block ≠ a.2.block) :
    Triple (Held (entries ∪ entriesAt handle r.interfaces) floor cleanupOk) (r.uninstall fw handle)
      (Released entries (entriesAt handle r.interfaces) floor cleanupOk) := by
  refine triple_uninstall_bind ?_ fun error => ?_
  · refine Triple.strengthen (fun s hs => hs.mono entriesAt_diff le_rfl) (triple_uninstall_bind ?_ fun error => ?_)
    · refine Triple.strengthen (fun s hs => hs.mono entriesAt_diff le_rfl) ?_
      rw [union_entriesAt_nil]
      exact (Triple.free fun i hi => h i hi _ List.mem_cons_self).bind fun _ => Triple.pure fun s hs => hs
    · exact Triple.pure fun s hs => hs.mono entriesAt_cons_subset le_rfl
  · refine triple_uninstall_bind ?_ fun error => Triple.pure fun s hs => hs
    exact Triple.pure fun s hs => hs.mono Set.sdiff_subset le_rfl

theorem RegisteredLinuxInitrdLoadFile2.triple_uninstall {r : RegisteredLinuxInitrdLoadFile2}
    (hprotocol : ∀ i ∈ entries, i.block ≠ r.protocol) (hpath : ∀ i ∈ entries, i.block ≠ r.devicePath)
    (hne : r.protocol ≠ r.devicePath) :
    Triple (Held (entries ∪ entriesAt r.handle r.interfaces) floor cleanupOk) (r.uninstall fw)
      (Released entries (entriesAt r.handle r.interfaces) floor cleanupOk) := by
  refine triple_uninstall_bind ?_ fun error => ?_
  · refine Triple.strengthen (fun s hs => hs.mono entriesAt_diff le_rfl) (triple_uninstall_bind ?_ fun error => ?_)
    · refine Triple.strengthen (fun s hs => hs.mono entriesAt_diff le_rfl) ?_
      rw [union_entriesAt_nil]
      refine (Triple.free hprotocol).bind fun _ => ?_
      exact (Triple.free hpath).bind fun _ => Triple.pure fun s hs => hs
    · refine (Triple.free ?_).bind fun _ => Triple.pure fun s hs => hs.mono entriesAt_cons_subset le_rfl
      rintro i (hi | ⟨-, hi⟩)
      · exact hpath i hi
      · rw [List.mem_singleton, Prod.mk.injEq] at hi
        rw [Interface.block, hi.2]
        exact hne
  · refine triple_uninstall_bind ?_ fun error => Triple.pure fun s hs => hs
    refine (Triple.free ?_).bind fun _ => Triple.pure fun s hs => hs.mono Set.sdiff_subset le_rfl
    rintro i ⟨hi | ⟨hhandle, hi⟩, hother⟩
    · exact hprotocol i hi
    · rw [RegisteredLinuxInitrdLoadFile2.interfaces, List.mem_cons, List.mem_singleton] at hi
      rcases hi with hi | hi
      · rw [Prod.mk.injEq] at hi
        rw [Interface.block, hi.2]
        exact hne.symm
      · rw [Prod.mk.injEq] at hi
        exact (hother (Interface.ext hhandle hi.1 hi.2)).elim

/-- A block that was new when it was allocated. -/
theorem block_ne {block : Nat} (hbelow : ∀ i ∈ entries, i.block < floor) (h : floor ≤ block) :
    ∀ i ∈ entries, i.block ≠ block := fun i hi => ((hbelow i hi).trans_le h).ne

theorem IsoSimpleFileSystemProtocol.triple_install (hbelow : ∀ i ∈ entries, i.block < floor) :
    Triple (Held entries floor cleanupOk) (IsoSimpleFileSystemProtocol.install fw handle) fun
      | .ok r, s => floor ≤ r.protocol ∧ Held (entries ∪ entriesAt handle r.interfaces) (r.protocol + 1) cleanupOk s
      | .error _, s => Held entries floor cleanupOk s := by
  refine Triple.allocate_bind fun protocol hnew => triple_install_bind (fun h hh => ?_) fun error => ?_
  · obtain rfl := hh handle rfl
    refine Triple.pure fun s hs => ⟨hnew, ?_⟩
    rwa [RegisteredIsoSimpleFileSystem.interfaces, ← insert_entriesAt, union_entriesAt_nil]
  · refine (Triple.free (block_ne hbelow hnew)).bind fun _ => Triple.pure fun s hs => ?_
    exact hs.mono le_rfl (hnew.trans (Nat.le_succ _))

theorem PreloadedLoadFileProtocol.triple_install (hbelow : ∀ i ∈ entries, i.block < floor) :
    Triple (Held entries floor cleanupOk) (PreloadedLoadFileProtocol.install fw handle) fun
      | .ok r, s => floor ≤ r.protocol ∧ Held (entries ∪ entriesAt handle r.interfaces) (r.protocol + 1) cleanupOk s
      | .error error, s => ∃ protocol, floor ≤ protocol ∧
          Refused entries {i | i.block = protocol} (protocol + 1) cleanupOk error s := by
  refine Triple.allocate_bind fun protocol hnew => triple_install_bind (fun h hh => ?_) fun error => ?_
  · obtain rfl := hh handle rfl
    refine triple_install_bind (fun h' hh' => ?_) fun error => ?_
    · obtain rfl := hh' h rfl
      refine Triple.pure fun s hs => ⟨hnew, hs.mono ?_ le_rfl⟩
      rw [RegisteredPreloadedLoadFile.interfaces, ← insert_entriesAt, ← insert_entriesAt, union_entriesAt_nil, Set.insert_comm]
    · refine triple_uninstall_bind ?_ fun error' => ?_
      · refine Triple.strengthen (fun s hs => hs.mono (Set.sdiff_singleton_subset_iff.mpr le_rfl) le_rfl) ?_
        refine (Triple.free (block_ne hbelow hnew)).bind fun _ => Triple.pure fun s hs => ?_
        exact ⟨protocol, hnew, .inl hs⟩
      · refine Triple.pure fun s hs => ⟨protocol, hnew, .inr ⟨rfl, hs.mono ?_ le_rfl⟩⟩
        exact Set.insert_subset (.inr rfl) Set.subset_union_left
  · refine (Triple.free (block_ne hbelow hnew)).bind fun _ => Triple.pure fun s hs => ?_
    exact ⟨protocol, hnew, .inl hs⟩

theorem LinuxInitrdLoadFile2Protocol.triple_install (hbelow : ∀ i ∈ entries, i.block < floor) :
    Triple (Held entries floor cleanupOk) (LinuxInitrdLoadFile2Protocol.install fw) fun
      | .ok r, s => floor ≤ r.protocol ∧ r.protocol < r.devicePath ∧
          Held (entries ∪ entriesAt r.handle r.interfaces) (r.devicePath + 1) cleanupOk s
      | .error error, s => ∃ protocol, floor ≤ protocol ∧
          Refused entries {i | i.block = protocol} (protocol + 1) cleanupOk error s := by
  refine Triple.allocate_bind fun protocol hnew => triple_install_bind (fun handle _ => ?_) fun error => ?_
  · refine Triple.allocate_bind fun devicePath hlater => triple_install_bind (fun h hh => ?_) fun error => ?_
    · obtain rfl := hh handle rfl
      refine Triple.pure fun s hs => ⟨hnew, hlater, hs.mono ?_ le_rfl⟩
      rw [RegisteredLinuxInitrdLoadFile2.interfaces, ← insert_entriesAt, ← insert_entriesAt, union_entriesAt_nil]
    · have hpath := block_ne hbelow (hnew.trans (Nat.le_of_succ_le hlater))
      refine triple_uninstall_bind ?_ fun error' => ?_
      · refine Triple.strengthen (fun s hs => hs.mono (Set.sdiff_singleton_subset_iff.mpr le_rfl) le_rfl) ?_
        refine (Triple.free hpath).bind fun _ => (Triple.free (block_ne hbelow hnew)).bind fun _ => ?_
        exact Triple.pure fun s hs => ⟨protocol, hnew, .inl (hs.mono le_rfl (hlater.trans (Nat.le_succ _)))⟩
      · refine (Triple.free ?_).bind fun _ => Triple.pure fun s hs => ?_
        · rintro i (rfl | hi)
          · exact (Nat.lt_of_succ_le hlater).ne
          · exact hpath i hi
        · refine ⟨protocol, hnew, .inr ⟨rfl, hs.mono ?_ (hlater.trans (Nat.le_succ _))⟩⟩
          exact Set.insert_subset (.inr rfl) Set.subset_union_left
  · refine (Triple.free (block_ne hbelow hnew)).bind fun _ => Triple.pure fun s hs => ?_
    exact ⟨protocol, hnew, .inl hs⟩

/-- What a device has on its handle so far. -/
def placed (handle : Option Nat) (installed : List (Guid × Pointer)) : Set Interface :=
  handle.elim ∅ fun handle => entriesAt handle installed

theorem VirtualBlockIoProtocol.triple_installEach {protocol devicePath : Nat} {target : Option Nat}
    {installed rest : List (Guid × Pointer)} (hprotocol : ∀ i ∈ entries, i.block ≠ protocol)
    (hpath : ∀ i ∈ entries, i.block ≠ devicePath) (htarget : target = none → installed = []) :
    Triple (Held (entries ∪ placed target installed) floor cleanupOk)
      (VirtualBlockIoProtocol.installEach fw protocol devicePath target installed rest) fun
      | .ok last, s => Held (entries ∪ placed last (rest.reverse ++ installed)) floor cleanupOk s
      | .error error, s => Refused entries Set.univ floor cleanupOk error s := by
  induction rest generalizing target installed with
  | nil => exact Triple.pure fun s hs => hs
  | cons interface rest ih =>
      obtain ⟨guid, pointer⟩ := interface
      refine triple_install_bind (fun handle hhandle => ?_) fun error => ?_
      · have hplaced : insert ⟨handle, guid, pointer⟩ (entries ∪ placed target installed) =
            entries ∪ placed (some handle) ((guid, pointer) :: installed) := by
          cases target with
          | none => rw [htarget rfl, placed, placed, Option.elim_none, Option.elim_some, ← insert_entriesAt,
              union_entriesAt_nil, Set.union_empty]
          | some h =>
              obtain rfl := hhandle h rfl
              exact insert_entriesAt
        rw [hplaced, List.reverse_cons, List.append_assoc]
        exact ih (by simp)
      · cases target with
        | none =>
            rw [placed, Option.elim_none, Set.union_empty]
            dsimp only [Option.elim_none]
            rw [Lifetimes.pure_bind]
            refine (Triple.free hpath).bind fun _ => (Triple.free hprotocol).bind fun _ => ?_
            exact Triple.pure fun s hs => .inl hs
        | some handle =>
            refine triple_uninstallEach.bind fun failure => ?_
            cases failure with
            | some _ => exact Triple.pure fun s hs => .inr ⟨rfl, hs.1.mono (by simp) le_rfl⟩
            | none =>
                refine Triple.strengthen (fun s hs => (hs.2 rfl).2) ((Triple.free hpath).bind fun _ => ?_)
                exact (Triple.free hprotocol).bind fun _ => Triple.pure fun s hs => .inl hs

theorem VirtualBlockIoProtocol.triple_install (hbelow : ∀ i ∈ entries, i.block < floor) :
    Triple (Held entries floor cleanupOk) (VirtualBlockIoProtocol.install fw) fun
      | .ok r, s => floor ≤ r.protocol ∧ r.protocol < r.devicePath ∧
          Held (entries ∪ entriesAt r.handle r.interfaces) (r.devicePath + 1) cleanupOk s
      | .error error, s => Refused entries Set.univ floor cleanupOk error s := by
  refine Triple.allocate_bind fun protocol hnew => Triple.allocate_bind fun devicePath hlater => ?_
  have hpath := block_ne hbelow (hnew.trans (Nat.le_of_succ_le hlater))
  have hprotocol := block_ne hbelow hnew
  have hloop : Triple (Held entries (devicePath + 1) cleanupOk) (installEach fw protocol devicePath none []
      [RegisteredVirtualBlockIo.protocolPtr protocol, RegisteredVirtualBlockIo.blockIo2Ptr protocol,
        RegisteredVirtualBlockIo.devicePathPtr devicePath]) _ :=
    Triple.strengthen (fun s hs => hs.mono Set.subset_union_left le_rfl) (triple_installEach hprotocol hpath fun _ => rfl)
  refine Triple.orReturn hloop (fun last => ?_) ?_
  · cases last with
    | none =>
        refine Triple.strengthen (fun s hs => hs.mono (Set.union_subset le_rfl (Set.empty_subset _)) le_rfl) ?_
        refine (Triple.free hpath).bind fun _ => (Triple.free hprotocol).bind fun _ => ?_
        exact Triple.pure fun s hs => .inl (hs.mono le_rfl (by omega))
    | some handle => exact Triple.pure fun s hs => ⟨hnew, hlater, hs⟩
  · rintro error s (hs | ⟨rfl, hs⟩)
    · exact .inl (hs.mono le_rfl (by omega))
    · exact .inr ⟨rfl, hs.mono le_rfl (by omega)⟩
end specs
end NextBoot.Boot
