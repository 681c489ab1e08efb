import NextBoot.Boot.Interfaces

namespace NextBoot.Boot

open Lifetimes

inductive ImageFormat
  | iso
  | wim
  | esd
  | efiExecutable
  | rawDisk
  | vhd
  | fixedVhd
  | dynamicVhd
  | differencingVhd
  | vhdx
  | vdi
  | unknown
deriving DecidableEq, Repr

namespace ImageFormat

def isIso (format : ImageFormat) : Bool := format = iso

def isEfiExecutable (format : ImageFormat) : Bool := format = efiExecutable

def isWimContainer (format : ImageFormat) : Bool := format = wim ∨ format = esd

def supportsVirtualDiskBoot (format : ImageFormat) : Bool :=
  format ∈ [iso, rawDisk, fixedVhd, dynamicVhd, vhdx, vdi]

end ImageFormat

inductive OsType
  | windows
  | ubuntu
  | debian
  | fedora
  | arch
  | linux
  | winPe
  | unknown
deriving DecidableEq, Repr

def OsType.isLinux (os : OsType) : Bool := os ∈ [ubuntu, debian, fedora, arch, linux]

/-- The image to boot, and how many of its loaders can be read ahead. -/
structure IsoFile where
  imageFormat : ImageFormat
  osType : OsType
  loadableEntries : Nat

structure VirtualRegistration where
  block : Option RegisteredVirtualBlockIo
  filesystem : Option RegisteredIsoSimpleFileSystem
  files : Option RegisteredPreloadedLoadFile

variable (fw : Firmware)

namespace VirtualRegistration

/-- What is left of a registration once `drop` has run is freed; after `take` nothing is. -/
def freeFields (r : VirtualRegistration) : Attempt Unit := do
  r.filesystem.elim (pure ()) fun filesystem => free filesystem.protocol
  r.files.elim (pure ()) fun files => free files.protocol

def uninstallFiles (r : VirtualRegistration) (handle : Nat) : Attempt (Except Status Unit) :=
  r.files.elim (pure (.ok ())) fun files => files.uninstall fw handle

def uninstallFilesystem (r : VirtualRegistration) (handle : Nat) : Attempt (Except Status Unit) :=
  r.filesystem.elim (pure (.ok ())) fun filesystem => filesystem.uninstall fw handle

def drop (r : VirtualRegistration) : Attempt Unit :=
  match r.block with
  | none => r.freeFields
  | some block => do
      let disconnected ← outside fw
      let files ← r.uninstallFiles fw block.handle
      let filesystem ← r.uninstallFilesystem fw block.handle
      let block ← block.uninstall fw
      if disconnected.isOk && files.isOk && filesystem.isOk && block.isOk then pure () else setOwn false

end VirtualRegistration

structure VirtualBootDevice where
  handle : Nat
  registration : VirtualRegistration

def preloadLoadFileEntries (iso : IsoFile) : Nat := if iso.imageFormat.isIso then iso.loadableEntries else 0

/-- Without an ISO there is no filesystem; with one, an error is only warned about. -/
def installSimpleFileSystem (iso : IsoFile) (handle : Nat) : Attempt (Option RegisteredIsoSimpleFileSystem) :=
  if iso.imageFormat.isIso then do
    match ← orReturn (outside fw) fun _ => IsoSimpleFileSystemProtocol.install fw handle with
    | .ok filesystem => pure (some filesystem)
    | .error _ => pure none
  else pure none

def installLoadFile (iso : IsoFile) (handle : Nat) : Attempt (Option RegisteredPreloadedLoadFile) :=
  if preloadLoadFileEntries iso = 0 then pure none
  else do
    match ← PreloadedLoadFileProtocol.install fw handle with
    | .ok files => pure (some files)
    | .error .compromisedData => do
        setOwn false
        pure none
    | .error _ => pure none

/-- The calls before `install` open the source volume, read the overlays and the replacements, build the device and
add the overlays to it. -/
def createVirtualBlockIo (iso : IsoFile) : Attempt (Except Status VirtualBootDevice) :=
  orReturn (outside fw) fun _ => orReturn (outside fw) fun _ => orReturn (outside fw) fun _ =>
  orReturn (outside fw) fun _ => orReturn (outside fw) fun _ =>
  orReturn (VirtualBlockIoProtocol.install fw) fun block => do
    let filesystem ← installSimpleFileSystem fw iso block.handle
    let files ← installLoadFile fw iso block.handle
    pure (.ok ⟨block.handle, ⟨some block, filesystem, files⟩⟩)

/-- The initrd provider; without one the loader gets the path of the initrd only. -/
def installInitrd : Attempt (Except Status (Option RegisteredLinuxInitrdLoadFile2)) := do
  match ← LinuxInitrdLoadFile2Protocol.install fw with
  | .ok provider => pure (.ok (some provider))
  | .error .compromisedData => do
      setOwn false
      pure (.error .compromisedData)
  | .error _ => pure (.ok none)

/-- The provider is taken off when the loader comes back. -/
def startWithInitrd (provider : Option RegisteredLinuxInitrdLoadFile2) : Attempt (Except Status Unit) := do
  let result ← outside fw
  match provider with
  | none => pure result
  | some provider => do
      match ← provider.uninstall fw with
      | .ok () => pure result
      | .error error => do
          setOwn false
          pure (.error error)

/-- The calls before `installInitrd` find the configuration, load the kernel and the initrd, and check both. -/
def tryDirectLinuxEfiStub : Attempt (Except Status Unit) :=
  orReturn (outside fw) fun _ => orReturn (outside fw) fun _ => orReturn (outside fw) fun _ =>
  orReturn (outside fw) fun _ => orReturn (outside fw) fun _ =>
  orReturn (installInitrd fw) fun provider => startWithInitrd fw provider

def bootLinux : Attempt (Except Status Unit) := do
  match ← tryDirectLinuxEfiStub fw with
  | .ok () => pure (.ok ())
  | .error error => do
      let canRetry ← getOwn
      if canRetry then outside fw else pure (.error error)

def bootDevice (iso : IsoFile) : Attempt (Except Status Unit) := do
  let cleanupOk ← getOwn
  if ¬ cleanupOk then pure (.error .deviceError)
  else if iso.imageFormat.isIso && iso.osType.isLinux then bootLinux fw
  else do
    match ← outside fw with
    | .ok () => pure (.ok ())
    | .error error =>
        if ¬ iso.imageFormat.isIso then pure (.error error)
        else
          match iso.osType with
          | .windows | .winPe | .unknown => outside fw
          | .ubuntu | .debian | .fedora | .arch | .linux => bootLinux fw

/-- The device lives until the end of the attempt. -/
def prepareBootInner (iso : IsoFile) : Attempt (Except Status Unit) :=
  if iso.imageFormat.isEfiExecutable || iso.imageFormat.isWimContainer then outside fw
  else if ¬ iso.imageFormat.supportsVirtualDiskBoot then pure (.error .unsupported)
  else do
    let _ ← outside fw
    orReturn (createVirtualBlockIo fw iso) fun device => do
      let result ← bootDevice fw iso
      device.registration.drop fw
      pure result

def releaseOsParameters (result : Except Status Unit) : Attempt (Except Status Unit) := do
  let cleanupOk ← getOwn
  if cleanupOk then do
    match ← outside fw with
    | .ok () => pure result
    | .error error => do
        setOwn false
        pure (.error error)
  else pure (.error .deviceError)

def prepareAndBoot (iso : IsoFile) : Attempt (Except Status Unit) := do
  match ← prepareBootInner fw iso with
  | .error .compromisedData => do
      setOwn false
      releaseOsParameters fw (.error .compromisedData)
  | result => releaseOsParameters fw result

def canRetry (s : Session Interface Bool) : Bool := s.own

namespace VirtualRegistration

def blockInterfaces (r : VirtualRegistration) : List (Guid × Pointer) := r.block.elim [] (·.interfaces)

def filesystemInterfaces (r : VirtualRegistration) : List (Guid × Pointer) := r.filesystem.elim [] (·.interfaces)

def filesInterfaces (r : VirtualRegistration) : List (Guid × Pointer) := r.files.elim [] (·.interfaces)

def interfaces (r : VirtualRegistration) : List (Guid × Pointer) :=
  r.blockInterfaces ++ r.filesystemInterfaces ++ r.filesInterfaces

end VirtualRegistration

/-- No block is behind both lists. -/
def Separate (first second : List (Guid × Pointer)) : Prop := ∀ a ∈ first, ∀ b ∈ second, a.2.block ≠ b.2.block

/-- What a registered device and whatever else was left behind have to do with each other: nothing. -/
structure Owned (r : VirtualRegistration) (handle : Nat) (left : Set Interface) (floor : Nat) : Prop where
  block_eq : ∃ block, r.block = some block ∧ block.handle = handle
  filesystem_block : Separate r.filesystemInterfaces r.blockInterfaces
  files_block : Separate r.filesInterfaces r.blockInterfaces
  files_filesystem : Separate r.filesInterfaces r.filesystemInterfaces
  below : ∀ a ∈ r.interfaces, a.2.block < floor
  left_below : ∀ i ∈ left, i.block < floor
  apart : ∀ i ∈ left, ∀ a ∈ r.interfaces, i.block ≠ a.2.block

/-- The device is registered, and as long as the attempt may be repeated nothing else is. -/
def Attempting (r : VirtualRegistration) (handle : Nat) (s : Session Interface Bool) : Prop :=
  ∃ left floor cleanupOk, Held (left ∪ entriesAt handle r.interfaces) floor cleanupOk s ∧ Owned r handle left floor ∧
    (cleanupOk = true → left = ∅)

/-- The attempt is over: no block was freed too early, and an attempt that may be repeated has left nothing. -/
def Settled (s : Session Interface Bool) : Prop :=
  FreesSafely Interface.block s.events ∧ (s.own = true → replay s.events = ∅)

section attempts

variable {α : Type} {fw : Firmware} {iso : IsoFile} {r : VirtualRegistration} {handle floor : Nat} {cleanupOk : Bool}
variable {left new entries : Set Interface} {Q : α → Session Interface Bool → Prop}

theorem entriesAt_append {first second : List (Guid × Pointer)} :
    entriesAt handle (first ++ second) = entriesAt handle first ∪ entriesAt handle second := by
  ext i
  simp only [entriesAt, Set.mem_union, Set.mem_ofPred_eq, List.mem_append]
  tauto

theorem Held.settled {s : Session Interface Bool} (h : Held entries floor cleanupOk s)
    (hentries : cleanupOk = true → entries = ∅) : Settled s := by
  refine ⟨h.safe, fun hown => Finset.eq_empty_of_forall_notMem fun i hi => ?_⟩
  rw [h.own_eq] at hown
  have hmem := h.subset i hi
  rw [hentries hown] at hmem
  exact hmem

theorem Owned.add {ceiling : Nat} (h : Owned r handle left floor) (hle : floor ≤ ceiling)
    (hnew : ∀ i ∈ new, floor ≤ i.block ∧ i.block < ceiling) : Owned r handle (left ∪ new) ceiling where
  block_eq := h.block_eq
  filesystem_block := h.filesystem_block
  files_block := h.files_block
  files_filesystem := h.files_filesystem
  below a ha := (h.below a ha).trans_le hle
  left_below := by
    rintro i (hi | hi)
    · exact (h.left_below i hi).trans_le hle
    · exact (hnew i hi).2
  apart := by
    rintro i (hi | hi) a ha
    · exact h.apart i hi a ha
    · exact ((h.below a ha).trans_le (hnew i hi).1).ne'

theorem Owned.mono {ceiling : Nat} (h : Owned r handle left floor) (hle : floor ≤ ceiling) : Owned r handle left ceiling :=
  { h with
    below := fun a ha => (h.below a ha).trans_le hle
    left_below := fun i hi => (h.left_below i hi).trans_le hle }

theorem Attempting.intro {x : Attempt α}
    (h : ∀ left floor cleanupOk, Owned r handle left floor → (cleanupOk = true → left = ∅) →
      Triple (Held (left ∪ entriesAt handle r.interfaces) floor cleanupOk) x Q) : Triple (Attempting r handle) x Q := by
  rintro s ⟨left, floor, cleanupOk, hheld, howned, hflag⟩
  exact h left floor cleanupOk howned hflag s hheld

theorem triple_outside : Triple (Attempting r handle) (outside fw) fun _ => Attempting r handle := by
  refine Attempting.intro fun left floor cleanupOk howned hflag => ?_
  exact fun s hs => ⟨left, floor, cleanupOk, ⟨hs.safe, hs.subset, hs.floor_le, hs.own_eq⟩, howned, hflag⟩

theorem triple_setOwn_false (howned : Owned r handle left floor) (h : entries ⊆ left ∪ entriesAt handle r.interfaces) :
    Triple (Held entries floor cleanupOk) (setOwn false) fun _ => Attempting r handle :=
  Triple.setOwn.weaken fun _ _ hs => ⟨left, floor, false, hs.mono h le_rfl, howned, nofun⟩

/-- The initrd provider is registered as well, in blocks that were made after those of the device. -/
def Serving (r : VirtualRegistration) (handle : Nat) : Option RegisteredLinuxInitrdLoadFile2 → Session Interface Bool → Prop
  | none, s => Attempting r handle s
  | some provider, s => ∃ left floor cleanupOk, Owned r handle left floor ∧ (cleanupOk = true → left = ∅) ∧
      floor ≤ provider.protocol ∧ provider.protocol < provider.devicePath ∧
      Held (left ∪ entriesAt handle r.interfaces ∪ entriesAt provider.handle provider.interfaces) (provider.devicePath + 1)
        cleanupOk s

theorem Owned.entries_below (h : Owned r handle left floor) : ∀ i ∈ left ∪ entriesAt handle r.interfaces, i.block < floor := by
  rintro i (hi | ⟨-, hi⟩)
  · exact h.left_below i hi
  · exact h.below _ hi

theorem triple_installInitrd : Triple (Attempting r handle) (installInitrd fw) fun
    | .ok provider, s => Serving r handle provider s
    | .error _, s => Attempting r handle s := by
  refine Attempting.intro fun left floor cleanupOk howned hflag => ?_
  refine (LinuxInitrdLoadFile2Protocol.triple_install howned.entries_below).bind fun result => ?_
  cases result with
  | ok provider =>
      refine Triple.pure fun s hs => ⟨left, floor, cleanupOk, howned, hflag, hs.1, hs.2.1, hs.2.2⟩
  | error error =>
      rintro s ⟨protocol, hnew, hs | ⟨rfl, hs⟩⟩
      · have hkept := howned.mono (Nat.le_succ_of_le hnew)
        cases error with
        | compromisedData => exact (triple_setOwn_false hkept le_rfl).bind (fun _ => Triple.pure fun _ => id) s hs
        | unsupported => exact ⟨left, _, cleanupOk, hs, hkept, hflag⟩
        | deviceError => exact ⟨left, _, cleanupOk, hs, hkept, hflag⟩
        | other _ => exact ⟨left, _, cleanupOk, hs, hkept, hflag⟩
      · have hkept : Owned r handle (left ∪ {i | i.block = protocol}) (protocol + 1) :=
          howned.add (Nat.le_succ_of_le hnew) (by rintro i rfl; exact ⟨hnew, Nat.lt_succ_self _⟩)
        exact (triple_setOwn_false hkept (Set.union_right_comm _ _ _).subset).bind (fun _ => Triple.pure fun _ => id) s hs

theorem triple_startWithInitrd {provider : Option RegisteredLinuxInitrdLoadFile2} :
    Triple (Serving r handle provider) (startWithInitrd fw provider) fun _ => Attempting r handle := by
  cases provider with
  | none => exact triple_outside.bind fun result => Triple.pure fun s hs => hs
  | some provider =>
      rintro s ⟨left, floor, cleanupOk, howned, hflag, hnew, hlt, hs⟩
      have hprotocol := block_ne howned.entries_below hnew
      have hpath := block_ne howned.entries_below (hnew.trans hlt.le)
      suffices h : Triple (Held _ (provider.devicePath + 1) cleanupOk) (startWithInitrd fw (some provider))
        fun _ => Attempting r handle from h s hs
      refine Triple.call_bind fun number => ?_
      refine (provider.triple_uninstall hprotocol hpath hlt.ne).bind fun result => ?_
      cases result with
      | ok _ =>
          exact Triple.pure fun s hs => ⟨left, _, cleanupOk, hs, howned.mono (by omega), hflag⟩
      | error error =>
          have hkept : Owned r handle (left ∪ entriesAt provider.handle provider.interfaces) (provider.devicePath + 1) := by
            refine howned.add (by omega) ?_
            rintro i ⟨-, hi⟩
            have hblock : i.block = provider.devicePath ∨ i.block = provider.protocol := by
              rw [RegisteredLinuxInitrdLoadFile2.interfaces, List.mem_cons, List.mem_singleton] at hi
              exact hi.imp (congrArg fun a : Guid × Pointer => a.2.block) (congrArg fun a : Guid × Pointer => a.2.block)
            omega
          exact (triple_setOwn_false hkept (Set.union_right_comm _ _ _).subset).bind fun _ => Triple.pure fun _ => id

theorem triple_bootLinux : Triple (Attempting r handle) (bootLinux fw) fun _ => Attempting r handle := by
  have hstub : Triple (Attempting r handle) (tryDirectLinuxEfiStub fw) fun _ => Attempting r handle := by
    refine Triple.orReturn triple_outside (fun _ => ?_) fun _ _ hs => hs
    refine Triple.orReturn triple_outside (fun _ => ?_) fun _ _ hs => hs
    refine Triple.orReturn triple_outside (fun _ => ?_) fun _ _ hs => hs
    refine Triple.orReturn triple_outside (fun _ => ?_) fun _ _ hs => hs
    refine Triple.orReturn triple_outside (fun _ => ?_) fun _ _ hs => hs
    exact Triple.orReturn triple_installInitrd (fun _ => triple_startWithInitrd) fun _ _ hs => hs
  refine hstub.bind fun result => ?_
  cases result with
  | ok _ => exact Triple.pure fun _ => id
  | error error =>
      refine Triple.getOwn_bind fun canRetry => ?_
      cases canRetry with
      | false => exact Triple.pure fun _ => id
      | true => exact triple_outside

theorem triple_bootDevice : Triple (Attempting r handle) (bootDevice fw iso) fun _ => Attempting r handle := by
  refine Triple.getOwn_bind fun cleanupOk => ?_
  refine Triple.ite (fun _ => Triple.pure fun _ => id) fun _ => Triple.ite (fun _ => triple_bootLinux) fun _ => ?_
  refine triple_outside.bind fun result => ?_
  cases result with
  | ok _ => exact Triple.pure fun _ => id
  | error error =>
      refine Triple.ite (fun _ => Triple.pure fun _ => id) fun _ => ?_
      cases iso.osType with
      | windows | winPe | unknown => exact triple_outside
      | ubuntu | debian | fedora | arch | linux => exact triple_bootLinux

/-- The interfaces that an `uninstall` reports on are gone, or some of them are still there. -/
theorem Released.intro {x : Attempt α} {result : Except Status Unit} {removed : Set Interface}
    (h : ∀ kept, kept ⊆ removed → (result.isOk = true → kept = ∅) → Triple (Held (entries ∪ kept) floor cleanupOk) x Q) :
    Triple (Released entries removed floor cleanupOk result) x Q := by
  cases result with
  | ok _ => exact Triple.strengthen (fun s hs => hs.mono Set.subset_union_left le_rfl) (h ∅ (Set.empty_subset _) fun _ => rfl)
  | error error => exact h removed le_rfl nofun

theorem VirtualRegistration.triple_uninstallFiles (h : ∀ i ∈ entries, ∀ a ∈ r.filesInterfaces, i.block ≠ a.2.block) :
    Triple (Held (entries ∪ entriesAt handle r.filesInterfaces) floor cleanupOk) (r.uninstallFiles fw handle)
      (Released entries (entriesAt handle r.filesInterfaces) floor cleanupOk) := by
  obtain ⟨block, filesystem, files⟩ := r
  cases files with
  | none => exact Triple.pure fun s hs => hs.mono union_entriesAt_nil.subset le_rfl
  | some files => exact files.triple_uninstall h

theorem VirtualRegistration.triple_uninstallFilesystem
    (h : ∀ i ∈ entries, ∀ a ∈ r.filesystemInterfaces, i.block ≠ a.2.block) :
    Triple (Held (entries ∪ entriesAt handle r.filesystemInterfaces) floor cleanupOk) (r.uninstallFilesystem fw handle)
      (Released entries (entriesAt handle r.filesystemInterfaces) floor cleanupOk) := by
  obtain ⟨block, filesystem, files⟩ := r
  cases filesystem with
  | none => exact Triple.pure fun s hs => hs.mono union_entriesAt_nil.subset le_rfl
  | some filesystem => exact filesystem.triple_uninstall h

theorem Separate.ne_of_mem {first second : List (Guid × Pointer)} {i : Interface} {a : Guid × Pointer}
    (h : Separate first second) (hi : i ∈ entriesAt handle first) (ha : a ∈ second) : i.block ≠ a.2.block := h _ hi.2 a ha

theorem VirtualRegistration.triple_drop : Triple (Attempting r handle) (r.drop fw) fun _ => Settled := by
  refine Attempting.intro fun left floor cleanupOk howned hflag => ?_
  obtain ⟨block, hblock, rfl⟩ := howned.block_eq
  have hdrop : r.drop fw = (outside fw >>= fun disconnected => r.uninstallFiles fw block.handle >>= fun files =>
      r.uninstallFilesystem fw block.handle >>= fun filesystem => block.uninstall fw >>= fun block =>
        if disconnected.isOk && files.isOk && filesystem.isOk && block.isOk then pure () else setOwn false) := by
    rw [drop, hblock]
  have hinterfaces : r.blockInterfaces = block.interfaces := by rw [blockInterfaces, hblock, Option.elim_some]
  obtain ⟨-, hfsblock, hfilesblock, hfilesfs, -, -, hapart⟩ := howned
  simp only [interfaces, List.mem_append] at hapart
  rw [hinterfaces] at hfsblock hfilesblock hapart
  rw [hdrop, interfaces, hinterfaces, entriesAt_append, entriesAt_append]
  refine Triple.call_bind fun number => ?_
  have hfiles : ∀ i ∈ left ∪ entriesAt block.handle block.interfaces ∪ entriesAt block.handle r.filesystemInterfaces,
      ∀ a ∈ r.filesInterfaces, i.block ≠ a.2.block := by
    rintro i ((hi | hi) | hi) a ha
    · exact hapart i hi a (.inr ha)
    · exact (hfilesblock a ha _ hi.2).symm
    · exact (hfilesfs a ha _ hi.2).symm
  refine Triple.strengthen (fun s hs => hs.mono ?_ le_rfl) ((triple_uninstallFiles hfiles).bind fun files => ?_)
  · rw [← Set.union_assoc, ← Set.union_assoc]
  refine Released.intro fun kept₁ hkept₁ hok₁ => ?_
  have hfilesystem : ∀ i ∈ left ∪ kept₁ ∪ entriesAt block.handle block.interfaces, ∀ a ∈ r.filesystemInterfaces,
      i.block ≠ a.2.block := by
    rintro i ((hi | hi) | hi) a ha
    · exact hapart i hi a (.inl (.inr ha))
    · exact hfilesfs.ne_of_mem (hkept₁ hi) ha
    · exact (hfsblock a ha _ hi.2).symm
  refine Triple.strengthen (fun s hs => hs.mono ?_ le_rfl) ((triple_uninstallFilesystem hfilesystem).bind fun filesystem => ?_)
  · rw [Set.union_right_comm, Set.union_right_comm left]
  refine Released.intro fun kept₂ hkept₂ hok₂ => ?_
  have hrest : ∀ i ∈ left ∪ kept₁ ∪ kept₂, ∀ a ∈ block.interfaces, i.block ≠ a.2.block := by
    rintro i ((hi | hi) | hi) a ha
    · exact hapart i hi a (.inl (.inl ha))
    · exact hfilesblock.ne_of_mem (hkept₁ hi) ha
    · exact hfsblock.ne_of_mem (hkept₂ hi) ha
  refine Triple.strengthen (fun s hs => hs.mono ?_ le_rfl) ((block.triple_uninstall hrest).bind fun result => ?_)
  · rw [Set.union_right_comm]
  refine Released.intro fun kept₃ hkept₃ hok₃ => Triple.ite (fun hok => ?_) fun _ => ?_
  · simp only [Bool.and_eq_true] at hok
    obtain ⟨⟨⟨-, hfilesOk⟩, hfilesystemOk⟩, hresultOk⟩ := hok
    refine Triple.pure fun s hs => Held.settled hs fun hclean => ?_
    rw [hflag hclean, hok₁ hfilesOk, hok₂ hfilesystemOk, hok₃ hresultOk]
    simp
  · exact Triple.setOwn.weaken fun _ _ hs => Held.settled hs nofun

/-- Interfaces that were made between two values of the counter of blocks. -/
def Between (floor ceiling : Nat) (interfaces : List (Guid × Pointer)) : Prop :=
  floor ≤ ceiling ∧ ∀ a ∈ interfaces, floor ≤ a.2.block ∧ a.2.block < ceiling

theorem Between.nil {ceiling : Nat} (h : floor ≤ ceiling) : Between floor ceiling [] := ⟨h, nofun⟩

theorem Between.separate {middle ceiling : Nat} {first second : List (Guid × Pointer)} (hfirst : Between floor middle first)
    (hsecond : Between middle ceiling second) : Separate second first := fun a ha b hb =>
  ((hfirst.2 b hb).2.trans_le (hsecond.2 a ha).1).ne'

theorem triple_outside_held : Triple (Held entries floor cleanupOk) (outside fw) fun _ => Held entries floor cleanupOk :=
  fun _ hs => ⟨hs.safe, hs.subset, hs.floor_le, hs.own_eq⟩

theorem triple_installSimpleFileSystem (hbelow : ∀ i ∈ entries, i.block < floor) :
    Triple (Held entries floor cleanupOk) (installSimpleFileSystem fw iso handle) fun result s =>
      ∃ ceiling, Between floor ceiling (result.elim [] (·.interfaces)) ∧
        Held (entries ∪ entriesAt handle (result.elim [] (·.interfaces))) ceiling cleanupOk s := by
  have hnone : ∀ s, Held entries floor cleanupOk s → ∃ ceiling, Between floor ceiling [] ∧
      Held (entries ∪ entriesAt handle []) ceiling cleanupOk s := fun s hs =>
    ⟨floor, .nil le_rfl, hs.mono Set.subset_union_left le_rfl⟩
  refine Triple.ite (fun _ => ?_) fun _ => Triple.pure hnone
  refine Triple.bind (Triple.orReturn triple_outside_held (fun _ => IsoSimpleFileSystemProtocol.triple_install hbelow)
    fun _ _ hs => hs) fun result => ?_
  cases result with
  | error error => exact Triple.pure hnone
  | ok filesystem =>
      refine Triple.pure fun s hs => ⟨filesystem.protocol + 1, ⟨Nat.le_succ_of_le hs.1, ?_⟩, hs.2⟩
      rintro a ha
      rw [Option.elim_some, RegisteredIsoSimpleFileSystem.interfaces, List.mem_singleton] at ha
      rw [ha]
      exact ⟨hs.1, Nat.lt_succ_self _⟩

theorem triple_installLoadFile (hbelow : ∀ i ∈ entries, i.block < floor) :
    Triple (Held entries floor cleanupOk) (installLoadFile fw iso handle) fun result s =>
      ∃ left ceiling cleanupOk', Between floor ceiling (result.elim [] (·.interfaces)) ∧
        Held (left ∪ (entries ∪ entriesAt handle (result.elim [] (·.interfaces)))) ceiling cleanupOk' s ∧
        (∀ i ∈ left, floor ≤ i.block ∧ i.block < ceiling) ∧ (result.isSome ∨ cleanupOk' = true → left = ∅) := by
  have hnone : ∀ left ceiling cleanupOk' s, floor ≤ ceiling → Held (entries ∪ left) ceiling cleanupOk' s →
      (∀ i ∈ left, floor ≤ i.block ∧ i.block < ceiling) → (cleanupOk' = true → left = ∅) →
      ∃ left ceiling cleanupOk', Between floor ceiling [] ∧ Held (left ∪ (entries ∪ entriesAt handle [])) ceiling cleanupOk' s ∧
        (∀ i ∈ left, floor ≤ i.block ∧ i.block < ceiling) ∧ (false = true ∨ cleanupOk' = true → left = ∅) := by
    intro left ceiling cleanupOk' s hle hs hleft hflag
    refine ⟨left, ceiling, cleanupOk', .nil hle, ?_, hleft, fun h => hflag (h.resolve_left nofun)⟩
    rwa [union_entriesAt_nil, Set.union_comm]
  have hnothing : ∀ ceiling s, Held entries ceiling cleanupOk s → Held (entries ∪ ∅) ceiling cleanupOk s :=
    fun ceiling s hs => hs.mono Set.subset_union_left le_rfl
  refine Triple.ite (fun _ => Triple.pure fun s hs => hnone ∅ floor _ s le_rfl (hnothing _ s hs) (fun _ hi => hi.elim)
    fun _ => rfl) fun _ => ?_
  refine (PreloadedLoadFileProtocol.triple_install hbelow).bind fun result => ?_
  cases result with
  | ok files =>
      refine Triple.pure fun s hs => ⟨∅, files.protocol + 1, cleanupOk, ⟨Nat.le_succ_of_le hs.1, ?_⟩, ?_, fun _ hi => hi.elim,
        fun _ => rfl⟩
      · intro a ha
        have hblock : a.2.block = files.protocol := by
          rw [Option.elim_some, RegisteredPreloadedLoadFile.interfaces, List.mem_cons, List.mem_singleton] at ha
          rcases ha with rfl | rfl <;> rfl
        rw [hblock]
        exact ⟨hs.1, Nat.lt_succ_self _⟩
      · rw [Set.empty_union]
        exact hs.2
  | error error =>
      rintro s ⟨protocol, hnew, hs⟩
      have hle : floor ≤ protocol + 1 := Nat.le_succ_of_le hnew
      rcases hs with hs | ⟨rfl, hs⟩
      · cases error with
        | compromisedData =>
            exact hnone ∅ _ false (setOwn false s).2 hle (Triple.setOwn s (hnothing _ s hs)) (fun _ hi => hi.elim) fun _ => rfl
        | unsupported | deviceError | other => exact hnone ∅ _ _ s hle (hnothing _ s hs) (fun _ hi => hi.elim) fun _ => rfl
      · refine hnone _ _ false (setOwn false s).2 hle (Triple.setOwn s hs) ?_ nofun
        rintro i rfl
        exact ⟨hnew, Nat.lt_succ_self _⟩

theorem triple_createVirtualBlockIo : Triple (Held ∅ floor cleanupOk) (createVirtualBlockIo fw iso) fun
    | .ok device, s => Attempting device.registration device.handle s
    | .error error, s => Refused ∅ Set.univ floor cleanupOk error s := by
  refine Triple.orReturn triple_outside_held (fun _ => ?_) fun _ _ hs => .inl hs
  refine Triple.orReturn triple_outside_held (fun _ => ?_) fun _ _ hs => .inl hs
  refine Triple.orReturn triple_outside_held (fun _ => ?_) fun _ _ hs => .inl hs
  refine Triple.orReturn triple_outside_held (fun _ => ?_) fun _ _ hs => .inl hs
  refine Triple.orReturn triple_outside_held (fun _ => ?_) fun _ _ hs => .inl hs
  refine Triple.orReturn (VirtualBlockIoProtocol.triple_install fun _ hi => hi.elim) (fun block => ?_) fun _ _ hs => hs
  refine Triple.and_left fun hnew => Triple.and_left fun hlt => ?_
  rw [Set.empty_union]
  have hblock : Between 0 (block.devicePath + 1) block.interfaces := by
    refine ⟨Nat.zero_le _, fun a ha => ⟨Nat.zero_le _, ?_⟩⟩
    simp only [RegisteredVirtualBlockIo.interfaces, List.mem_cons, List.not_mem_nil, or_false] at ha
    rcases ha with rfl | rfl | rfl
    · exact Nat.lt_succ_self _
    · exact hlt.trans (Nat.lt_succ_self _)
    · exact hlt.trans (Nat.lt_succ_self _)
  refine (triple_installSimpleFileSystem fun i hi => (hblock.2 _ hi.2).2).bind fun filesystem => ?_
  refine Triple.exists_left fun middle => Triple.and_left fun hfilesystem => ?_
  refine (triple_installLoadFile ?_).bind fun files => Triple.pure ?_
  · rintro i (hi | hi)
    · exact (hblock.2 _ hi.2).2.trans_le hfilesystem.1
    · exact (hfilesystem.2 _ hi.2).2
  rintro s ⟨left, ceiling, cleanupOk', hfiles, hs, hleft, hflag⟩
  refine ⟨left, ceiling, cleanupOk', ?_, ?_, fun h => hflag (.inr h)⟩
  · rw [VirtualRegistration.interfaces, entriesAt_append, entriesAt_append]
    exact hs
  · have hearlier : Between 0 middle (block.interfaces ++ filesystem.elim [] (·.interfaces)) := by
      refine ⟨Nat.zero_le _, fun a ha => ⟨Nat.zero_le _, ?_⟩⟩
      rcases List.mem_append.mp ha with ha | ha
      · exact (hblock.2 a ha).2.trans_le hfilesystem.1
      · exact (hfilesystem.2 a ha).2
    have hapart := hearlier.separate hfiles
    refine ⟨⟨block, rfl, rfl⟩, hblock.separate hfilesystem, fun a ha b hb => hapart a ha b (List.mem_append_left _ hb),
      fun a ha b hb => hapart a ha b (List.mem_append_right _ hb), fun a ha => ?_, fun i hi => (hleft i hi).2, fun i hi a ha => ?_⟩
    · rcases List.mem_append.mp ha with ha | ha
      · exact (hearlier.2 a ha).2.trans_le hfiles.1
      · exact (hfiles.2 a ha).2
    · rcases List.mem_append.mp ha with ha | ha
      · exact ((hearlier.2 a ha).2.trans_le (hleft i hi).1).ne'
      · cases files with
        | none => exact (List.not_mem_nil ha).elim
        | some files =>
            rw [hflag (.inl rfl)] at hi
            exact hi.elim

theorem Settled.triple_outside : Triple Settled (outside fw) fun _ => Settled := fun _ hs => hs

theorem triple_setOwn_settled : Triple (fun s => FreesSafely Interface.block s.events) (setOwn false) fun _ => Settled :=
  fun _ hs => ⟨hs, nofun⟩

theorem triple_prepareBootInner : Triple (Held ∅ floor cleanupOk) (prepareBootInner fw iso) fun result s =>
    FreesSafely Interface.block s.events ∧ (result ≠ .error .compromisedData → Settled s) := by
  have hsettled : ∀ s, Held ∅ floor cleanupOk s → Settled s := fun s hs => Held.settled hs fun _ => rfl
  refine Triple.ite (fun _ => ?_) fun _ => Triple.ite (fun _ => ?_) fun _ => ?_
  · exact triple_outside_held.weaken fun _ s hs => ⟨hs.safe, fun _ => hsettled s hs⟩
  · exact Triple.pure fun s hs => ⟨hs.safe, fun _ => hsettled s hs⟩
  · refine triple_outside_held.bind fun _ => Triple.orReturn triple_createVirtualBlockIo (fun device => ?_) ?_
    · refine triple_bootDevice.bind fun result => VirtualRegistration.triple_drop.bind fun _ => ?_
      exact Triple.pure fun s hs => ⟨hs.1, fun _ => hs⟩
    · rintro error s (hs | ⟨rfl, hs⟩)
      · exact ⟨hs.safe, fun _ => hsettled s hs⟩
      · exact ⟨hs.safe, fun h => (h rfl).elim⟩

theorem triple_releaseOsParameters {result : Except Status Unit} :
    Triple Settled (releaseOsParameters fw result) fun _ => Settled := by
  refine Triple.getOwn_bind fun cleanupOk => Triple.ite (fun _ => ?_) fun _ => Triple.pure fun _ => id
  refine Settled.triple_outside.bind fun released => ?_
  cases released with
  | ok _ => exact Triple.pure fun _ => id
  | error error =>
      refine (Triple.strengthen (fun s hs => hs.1) triple_setOwn_settled).bind fun _ => Triple.pure fun _ => id

/-- However the firmware answers, nothing is freed that an installed interface points into, and after an attempt that
may be repeated none of its interfaces is installed. -/
theorem prepareAndBoot_settled (fw : Firmware) (iso : IsoFile) (cleanupOk : Bool) :
    let after := (prepareAndBoot fw iso ⟨[], 0, 0, cleanupOk⟩).2
    FreesSafely Interface.block after.events ∧ (canRetry after = true → replay after.events = ∅) := by
  have hrun : Triple (Held ∅ 0 cleanupOk) (prepareAndBoot fw iso) fun _ => Settled := by
    refine triple_prepareBootInner.bind fun result => ?_
    have hrelease : result ≠ .error .compromisedData → Triple (fun s => FreesSafely Interface.block s.events ∧
        (result ≠ .error .compromisedData → Settled s)) (releaseOsParameters fw result) fun _ => Settled := fun h =>
      Triple.strengthen (fun s hs => hs.2 h) triple_releaseOsParameters
    cases result with
    | ok _ => exact hrelease nofun
    | error error =>
        cases error with
        | unsupported | deviceError | other => exact hrelease nofun
        | compromisedData =>
            refine (Triple.strengthen (fun s hs => hs.1) triple_setOwn_settled).bind fun _ => ?_
            exact triple_releaseOsParameters
  exact hrun _ ⟨freesSafely_nil, fun i hi => (Finset.notMem_empty i hi).elim, le_rfl, rfl⟩

/-- Booting a Linux image on a firmware that never fails puts eight interfaces in place, and takes all of them away. -/
example : ((prepareAndBoot ⟨fun _ => .ok (), id⟩ ⟨.iso, .linux, 1⟩ ⟨[], 0, 0, true⟩).2.events.filterMap fun
    | .installed i => some i.guid
    | _ => none) = [.blockIo, .blockIo2, .devicePath, .simpleFileSystem, .loadFile, .loadFile2, .loadFile2, .devicePath] := by
  decide

end attempts

end NextBoot.Boot
