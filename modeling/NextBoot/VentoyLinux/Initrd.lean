import NextBoot.VentoyLinux.Archive

namespace NextBoot.VentoyLinux

open Bytes Newc Results Strings Words

def ventoyImageMapPath : Text := "ventoy/ventoy_image_map".toList

def ventoyPersistentMapPath : Text := "ventoy/ventoy_persistent_map".toList

def ventoyAutoinstallPath : Text := "ventoy/autoinstall".toList

def ventoyInjectionPath : Text := "ventoy/ventoy_injection".toList

def ventoyOsParamPath : Text := "ventoy/ventoy_os_param".toList

def ventoyChunkSize : Nat := 24

structure VentoyImageMapChunk where
  imgStartSector : UInt32
  imgEndSector : UInt32
  diskStartSector : UInt64
  diskEndSector : UInt64
deriving DecidableEq, Repr

structure VentoyDudFile where
  sourcePath : Text
  data : List UInt8
deriving DecidableEq, Repr

structure VentoyLinuxInitrdInput where
  baseArchives : List (List UInt8)
  originalInitrd : Option (List UInt8)
  imageMap : List VentoyImageMapChunk
  osParam : Vector UInt8 512
  autoInstall : Option (List UInt8)
  persistentMap : Option (List VentoyImageMapChunk)
  injectionArchive : Option (List UInt8)
  dudFiles : List VentoyDudFile

def encodeChunk (chunk : VentoyImageMapChunk) : List UInt8 :=
  toLeBytes 4 chunk.imgStartSector.toNat ++ toLeBytes 4 chunk.imgEndSector.toNat ++
    toLeBytes 8 chunk.diskStartSector.toNat ++ toLeBytes 8 chunk.diskEndSector.toNat

def encodeImageMap (chunks : List VentoyImageMapChunk) : Except VentoyLinuxInitrdError (List UInt8) := do
  let total ← someOr (checkedMul 64 chunks.length ventoyChunkSize) .valueOutOfRange
  refuseIf (isizeMax < total) .outputReserveFailed
  pure (chunks.flatMap encodeChunk)

/-- The file name of a path from its last dot on. -/
def pathExtension (path : Text) : Option Text :=
  let filename := ((rsplitOnce '/' path).map Prod.snd).getD path
  (rsplitOnce '.' filename).map fun parts => '.' :: parts.2

def dudEntryName (index : Nat) (sourcePath : Text) : Text :=
  "ventoy/ventoy_dud".toList ++ (toString index).toList ++ (pathExtension sourcePath).getD ".iso".toList

/-- A file that is added where there are contents for it. -/
def addOptional (builder : NewcArchiveBuilder) (name : Text) (contents : Option (List UInt8)) :
    Except VentoyLinuxInitrdError NewcArchiveBuilder :=
  match contents with
  | some data => builder.addFile name data
  | none => pure builder

def addPersistentMap (builder : NewcArchiveBuilder) (chunks : Option (List VentoyImageMapChunk)) :
    Except VentoyLinuxInitrdError NewcArchiveBuilder :=
  match chunks with
  | some chunks => do
      let data ← encodeImageMap chunks
      builder.addFile ventoyPersistentMapPath data
  | none => pure builder

def buildVentoyLinuxInitrd (input : VentoyLinuxInitrdInput) : Except VentoyLinuxInitrdError (List UInt8) := do
  let builder ← input.baseArchives.foldlM NewcArchiveBuilder.appendArchiveWithoutTrailer .new
  let builder ← addOptional builder "initrd000".toList input.originalInitrd
  let imageMap ← encodeImageMap input.imageMap
  let builder ← builder.addFile ventoyImageMapPath imageMap
  let builder ← addOptional builder ventoyAutoinstallPath input.autoInstall
  let builder ← addPersistentMap builder input.persistentMap
  let builder ← addOptional builder ventoyInjectionPath input.injectionArchive
  let builder ← input.dudFiles.zipIdx.foldlM
    (fun builder dud => builder.addFile (dudEntryName dud.2 dud.1.sourcePath) dud.1.data) builder
  let builder ← builder.addFile ventoyOsParamPath input.osParam.toList
  builder.finish

def optionalFile (name : Text) (contents : Option (List UInt8)) : List (Text × List UInt8) :=
  (contents.map fun data => (name, data)).toList

def imageMapBytes (chunks : List VentoyImageMapChunk) : List UInt8 := chunks.flatMap encodeChunk

/-- The files that an initrd adds to its base archives. -/
def initrdFiles (input : VentoyLinuxInitrdInput) : List (Text × List UInt8) :=
  optionalFile "initrd000".toList input.originalInitrd ++ [(ventoyImageMapPath, imageMapBytes input.imageMap)] ++
    optionalFile ventoyAutoinstallPath input.autoInstall ++
    optionalFile ventoyPersistentMapPath (input.persistentMap.map imageMapBytes) ++
    optionalFile ventoyInjectionPath input.injectionArchive ++
    input.dudFiles.zipIdx.map (fun dud => (dudEntryName dud.2 dud.1.sourcePath, dud.1.data)) ++
    [(ventoyOsParamPath, input.osParam.toList)]

variable {input : VentoyLinuxInitrdInput} {builder builder' : NewcArchiveBuilder} {name : Text} {archive : List UInt8}

abbrev addAll (builder : NewcArchiveBuilder) (files : List (Text × List UInt8)) :
    Except VentoyLinuxInitrdError NewcArchiveBuilder :=
  files.foldlM (fun builder file => builder.addFile file.1 file.2) builder

theorem addAll_singleton {data : List UInt8} : addAll builder [(name, data)] = builder.addFile name data := by
  rw [addAll, List.foldlM_cons]
  cases builder.addFile name data <;> rfl

theorem addOptional_eq {contents : Option (List UInt8)} :
    addOptional builder name contents = addAll builder (optionalFile name contents) := by
  cases contents with
  | none => rfl
  | some data => exact addAll_singleton.symm

theorem encodeImageMap_eq_ok {chunks : List VentoyImageMapChunk} {bytes : List UInt8}
    (h : encodeImageMap chunks = .ok bytes) : bytes = imageMapBytes chunks := by
  rw [encodeImageMap, bind_eq_ok] at h
  obtain ⟨_, -, h⟩ := h
  obtain ⟨_, -, h⟩ := bind_eq_ok.mp h
  exact (pure_eq_ok.mp h).symm

theorem addPersistentMap_eq_ok {chunks : Option (List VentoyImageMapChunk)}
    (h : addPersistentMap builder chunks = .ok builder') :
    addAll builder (optionalFile ventoyPersistentMapPath (chunks.map imageMapBytes)) = .ok builder' := by
  cases chunks with
  | none => exact h
  | some chunks =>
      obtain ⟨bytes, hbytes, h⟩ := bind_eq_ok.mp h
      rw [encodeImageMap_eq_ok hbytes] at h
      exact addAll_singleton.trans h

theorem addAll_append {files others : List (Text × List UInt8)} {next : NewcArchiveBuilder}
    (h : addAll builder files = .ok next) (h' : addAll next others = .ok builder') :
    addAll builder (files ++ others) = .ok builder' := by
  rw [addAll, List.foldlM_append]
  exact bind_eq_ok.mpr ⟨next, h, h'⟩

/-- An initrd that is built is the archive of its files. -/
theorem buildArchive_of_initrd (h : buildVentoyLinuxInitrd input = .ok archive) :
    buildArchive input.baseArchives (initrdFiles input) = .ok archive := by
  obtain ⟨bases, hbases, h⟩ := bind_eq_ok.mp h
  obtain ⟨original, horiginal, h⟩ := bind_eq_ok.mp h
  obtain ⟨imageMap, hencoded, h⟩ := bind_eq_ok.mp h
  obtain ⟨mapped, hmapped, h⟩ := bind_eq_ok.mp h
  obtain ⟨installed, hinstalled, h⟩ := bind_eq_ok.mp h
  obtain ⟨persistent, hpersistent, h⟩ := bind_eq_ok.mp h
  obtain ⟨injected, hinjected, h⟩ := bind_eq_ok.mp h
  obtain ⟨duds, hduds, h⟩ := bind_eq_ok.mp h
  obtain ⟨last, hlast, h⟩ := bind_eq_ok.mp h
  rw [addOptional_eq] at horiginal hinstalled hinjected
  rw [encodeImageMap_eq_ok hencoded, ← addAll_singleton] at hmapped
  rw [← addAll_singleton] at hlast
  have hduds' : addAll injected (input.dudFiles.zipIdx.map fun dud => (dudEntryName dud.2 dud.1.sourcePath, dud.1.data)) =
      .ok duds := by
    rw [addAll, List.foldlM_map]
    exact hduds
  have hall := addAll_append (addAll_append (addAll_append (addAll_append (addAll_append (addAll_append horiginal hmapped)
    hinstalled) (addPersistentMap_eq_ok hpersistent)) hinjected) hduds') hlast
  exact bind_eq_ok.mpr ⟨bases, hbases, bind_eq_ok.mpr ⟨last, hall, h⟩⟩

theorem mem_optionalFile {file : Text × List UInt8} {contents : Option (List UInt8)} (h : file ∈ optionalFile name contents) :
    file.1 = name := by
  rw [optionalFile, Option.mem_toList] at h
  obtain ⟨data, -, rfl⟩ := Option.map_eq_some_iff.mp h
  rfl

theorem head?_dudEntryName {index : Nat} {path : Text} : (dudEntryName index path).head? = some 'v' := by
  have hprefix : "ventoy/ventoy_dud".toList.head? = some 'v' := by decide +kernel
  unfold dudEntryName
  rw [List.append_assoc, List.head?_append, hprefix]
  exact Option.some_or

/-- No file of an initrd has the name of the trailer. -/
theorem initrdFiles_ne_trailer : ∀ file ∈ initrdFiles input, file.1 ≠ cpioTrailer := by
  intro file h
  have hhead : file.1.head? ≠ some 'T' := by
    simp only [initrdFiles, List.mem_append] at h
    rcases h with (((((h | h) | h) | h) | h) | h) | h
    · rw [mem_optionalFile h]
      decide
    · have hname : file.1 = ventoyImageMapPath := congrArg Prod.fst (List.mem_singleton.mp h)
      rw [hname]
      decide
    · rw [mem_optionalFile h]
      decide
    · rw [mem_optionalFile h]
      decide
    · rw [mem_optionalFile h]
      decide
    · obtain ⟨dud, -, hfile⟩ := List.mem_map.mp h
      rw [← hfile, head?_dudEntryName]
      decide
    · have hname : file.1 = ventoyOsParamPath := congrArg Prod.fst (List.mem_singleton.mp h)
      rw [hname]
      decide
  rintro heq
  rw [heq] at hhead
  exact hhead rfl

/-- An initrd holds the entries of its base archives and then its files. -/
theorem initrd_holds {bases : List (List UInt8 × List Entry)} (hbases : ∀ base ∈ bases, IsArchive base.1 base.2)
    (hinput : input.baseArchives = bases.map Prod.fst) (h : buildVentoyLinuxInitrd input = .ok archive) :
    Holds archive (bases.flatMap Prod.snd) (initrdFiles input) := by
  have hbuilt := buildArchive_of_initrd h
  rw [hinput] at hbuilt
  exact (buildArchive_holds hbases initrdFiles_ne_trailer).2 archive hbuilt

end NextBoot.VentoyLinux
