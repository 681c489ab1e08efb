import NextBoot.Bytes
import NextBoot.Fs.Device
import NextBoot.Strings
import NextBoot.Wim.Metadata
import NextBoot.Words

namespace NextBoot.VirtualFs

open Words Bytes Strings
open Fs (FsError)
open Wim (utf16Units)

inductive Status
  | success
  | invalidParameter
  | unsupported
  | bufferTooSmall
  | deviceError
  | writeProtected
  | outOfResources
  | volumeCorrupted
  | notFound
deriving DecidableEq, Repr

def fsErrorToStatus : FsError → Status
  | .fileNotFound | .directoryNotFound => .notFound
  | .invalidPath | .invalidArgument => .invalidParameter
  | .outOfMemory | .fileTooLarge => .outOfResources
  | .notDirectory | .notFile | .unsupportedFs => .unsupported
  | .invalidSignature | .blockSizeMismatch | .corrupted => .volumeCorrupted
  | .readError => .deviceError

structure FileAttributes where
  readOnly : Bool
  hidden : Bool
  system : Bool
  volumeId : Bool
  directory : Bool
  archive : Bool
deriving DecidableEq, Repr

structure FileInfo where
  name : Text
  size : Nat
  isDir : Bool
  attributes : FileAttributes
  startCluster : Nat
  contiguous : Bool
  size_lt : size < 2 ^ 64

/-- The file system behind the handles; `readFile` gives the bytes it copies to a buffer of the given length. -/
structure VirtualIsoFilesystem where
  stat : Text → Except FsError FileInfo
  readDir : Text → Except FsError (List FileInfo)
  readFile : Text → Nat → Nat → Except FsError (List UInt8)

section paths

/-- Both separators split a path. -/
def normalizePathSegments (path : Text) : Text :=
  let parts := (split '/' (path.map fun c => if c = '\\' then '/' else c)).filter (· ≠ [])
  let kept := parts.foldl (fun kept part =>
    if part = ['.'] then kept else if part = ['.', '.'] then kept.dropLast else kept ++ [part]) []
  '/' :: List.intercalate ['/'] kept

def pathKey (path : Text) : Text := (normalizePathSegments path).map toAsciiLowercase

def splitNormalizedPath (path : Text) : Text × Text :=
  match rsplitOnce '/' (normalizePathSegments path) with
  | none => (['/'], normalizePathSegments path)
  | some ([], name) => (['/'], name)
  | some (parent, name) => (parent, name)

def isSeparator (c : Char) : Bool := c = '/' ∨ c = '\\'

def resolveChildPath (base requested : Text) : Text :=
  if requested = [] ∨ requested = ['.'] then normalizePathSegments base
  else if requested.head?.any isSeparator then normalizePathSegments requested
  else normalizePathSegments (trimEndWhile isSeparator base ++ '/' :: requested)

/-- The file name a caller passes, as memory from its first unit on; it must end within 4096 units. -/
def stringFromUnits (units : Nat → Nat) : Nat → Nat → Option Text
  | 0, _ => none
  | remaining + 1, index =>
      if units index = 0 then some []
      else
        let c := (charFromU32 (units index)).getD replacementChar
        (stringFromUnits units remaining (index + 1)).map fun rest => (if c = '\\' then '/' else c) :: rest

def stringFromUefiChar16 (units : Nat → Nat) : Option Text := stringFromUnits units 4096 0

end paths

structure FileReplacementEntry where
  path : Text
  data : List UInt8
  data_lt : data.length < 2 ^ 64

namespace FileReplacementEntry

def key (r : FileReplacementEntry) : Text := pathKey r.path

def parentKey (r : FileReplacementEntry) : Text := pathKey (splitNormalizedPath r.path).1

def fileName (r : FileReplacementEntry) : Text := (splitNormalizedPath r.path).2

/-- What a listing shows of a replaced file. -/
def applyToListed (r : FileReplacementEntry) (entry : FileInfo) : FileInfo :=
  if ¬ entry.isDir ∧ eqIgnoreAsciiCase entry.name r.fileName then
    { entry with size := r.data.length, startCluster := 0, contiguous := false, size_lt := r.data_lt }
  else entry

end FileReplacementEntry

/-- The file system of a virtual image with its replacements, as all handles of the volume share it. -/
structure Volume where
  fs : VirtualIsoFilesystem
  replacements : List FileReplacementEntry
  volumeSize : Nat
  blockSize : Nat

namespace Volume

variable (v : Volume)

def findIndex (path : Text) : Option Nat := v.replacements.findIdx? fun r => r.key = pathKey path

def data (index : Nat) : Option (List UInt8) := v.replacements[index]?.map (·.data)

def applyToFileInfo (index : Nat) (info : FileInfo) : FileInfo :=
  match v.replacements[index]? with
  | none => info
  | some r =>
      { info with
        size := r.data.length, isDir := false, startCluster := 0, contiguous := false, size_lt := r.data_lt
        attributes := { info.attributes with directory := false } }

def applyToDirectory (dir : Text) (entries : List FileInfo) : List FileInfo :=
  v.replacements.foldl (fun entries r => if r.parentKey ≠ pathKey dir then entries else entries.map r.applyToListed) entries

/-- What a directory handle lists. -/
def listing (path : Text) : Except FsError (List FileInfo) :=
  (v.fs.readDir path).map fun entries => if v.replacements.isEmpty then entries else v.applyToDirectory path entries

end Volume

section info

def physicalSize (fileSize blockSize : Nat) : Nat :=
  if fileSize = 0 ∨ blockSize = 0 then fileSize
  else ((checkedAdd 64 fileSize (blockSize - 1)).map fun size => size / blockSize * blockSize).getD fileSize

def efiFileAttributes (info : FileInfo) : Nat :=
  1 + (if info.isDir then 0x10 else 0x20) + (if info.attributes.hidden then 2 else 0) +
    (if info.attributes.system then 4 else 0)

/-- The units of a name with the NUL behind them. -/
def encodeUtf16Nul (value : Text) : List Nat := value.flatMap utf16Units ++ [0]

/-- Bytes of a structure that ends in a name, padded to a multiple of eight; the sizes must not overflow. -/
def withName (nameOffset : Nat) (head : Nat → List UInt8) (name : Text) : Except Status (List UInt8) :=
  match (checkedMul 64 (encodeUtf16Nul name).length 2).bind fun nameBytes =>
      (checkedAdd 64 nameOffset nameBytes).bind fun size => (checkedAdd 64 size 7).map fun sum => sum / 8 * 8 with
  | none => .error .outOfResources
  | some totalSize =>
      let bytes := head totalSize ++ (encodeUtf16Nul name).flatMap (toLeBytes 2)
      .ok (bytes ++ List.replicate (totalSize - bytes.length) 0)

def buildFileInfoBytes (info : FileInfo) (blockSize : Nat) : Except Status (List UInt8) :=
  withName 80 (fun totalSize => toLeBytes 8 totalSize ++ toLeBytes 8 info.size ++
    toLeBytes 8 (physicalSize info.size blockSize) ++ List.replicate 48 0 ++ toLeBytes 8 (efiFileAttributes info)) info.name

def volumeLabel : Text := "NEXTBOOT".toList

def buildFileSystemInfoBytes (volumeSize blockSize : Nat) : Except Status (List UInt8) :=
  withName 36 (fun totalSize => toLeBytes 8 totalSize ++ [1] ++ List.replicate 7 0 ++ toLeBytes 8 volumeSize ++
    toLeBytes 8 0 ++ toLeBytes 4 blockSize) volumeLabel

def buildVolumeLabelBytes : Except Status (List UInt8) := .ok ((encodeUtf16Nul volumeLabel).flatMap (toLeBytes 2))

end info

/-- What a call gives back: its status, and what it writes to the buffer size, the buffer and the position. -/
structure Reply where
  status : Status
  bufferSize : Option Nat
  bytes : List UInt8
  position : Option Nat
deriving DecidableEq, Repr

def Reply.of (status : Status) : Reply := ⟨status, none, [], none⟩

def copyInfoResponse (bytes : List UInt8) (bufferSize : Option Nat) (buffer : Bool) : Reply :=
  match bufferSize with
  | none => .of .invalidParameter
  | some provided =>
      if ¬ buffer ∨ provided < bytes.length then ⟨.bufferTooSmall, some bytes.length, [], none⟩
      else ⟨.success, some bytes.length, bytes, none⟩

structure IsoFile where
  path : Text
  info : FileInfo
  replacementIndex : Option Nat
  position : Nat
  dirEntries : Option (List FileInfo)
  dirIndex : Nat
  volumeSize : Nat
  blockSize : Nat

namespace IsoFile

def new (path : Text) (info : FileInfo) (replacementIndex : Option Nat) (volumeSize blockSize : Nat) : IsoFile :=
  ⟨path, info, replacementIndex, 0, none, 0, volumeSize, blockSize⟩

def root (v : Volume) : IsoFile :=
  new ['/'] ⟨[], 0, true, ⟨false, false, false, false, true, false⟩, 0, false, Words.zero_lt_u64⟩ none v.volumeSize v.blockSize

def efiFileModeRead : Nat := 1

def efiFileModeWriteOrCreate : Nat := 2 ^ 63 + 2

variable (v : Volume) (file : IsoFile)

/-- Arguments that may be null are options or, where only that matters, truth values. -/
def openHandler (this : Option IsoFile) (newHandle : Bool) (fileName : Option (Nat → Nat)) (openMode : Nat) :
    Except Status IsoFile :=
  match newHandle, fileName with
  | true, some units =>
      if openMode &&& efiFileModeRead = 0 then .error .invalidParameter
      else if openMode &&& efiFileModeWriteOrCreate ≠ 0 then .error .writeProtected
      else
        match this with
        | none => .error .invalidParameter
        | some file =>
            if ¬ file.info.isDir then .error .notFound
            else
              match stringFromUefiChar16 units with
              | none => .error .invalidParameter
              | some requested =>
                  let path := resolveChildPath file.path requested
                  match v.fs.stat path with
                  | .error err => .error (fsErrorToStatus err)
                  | .ok info =>
                      match if info.isDir then none else v.findIndex path with
                      | none => .ok (new path info none file.volumeSize file.blockSize)
                      | some index =>
                          .ok (new path (v.applyToFileInfo index info) (some index) file.volumeSize file.blockSize)
  | _, _ => .error .invalidParameter

def readReplacementFile (index requested : Nat) : Except FsError (List UInt8) :=
  match v.data index with
  | none => .error .fileNotFound
  | some data => if file.position ≥ data.length then .ok [] else .ok ((data.drop file.position).take requested)

def readRegularFile (requested : Nat) (buffer : Bool) : IsoFile × Reply :=
  if requested = 0 then (file, ⟨.success, some 0, [], none⟩)
  else if ¬ buffer then (file, .of .invalidParameter)
  else
    let readResult := match file.replacementIndex with
      | some index => file.readReplacementFile v index requested
      | none => v.fs.readFile file.path file.position requested
    match readResult with
    | .ok bytes =>
        ({ file with position := min (file.position + bytes.length) (2 ^ 64 - 1) },
          ⟨.success, some bytes.length, bytes, none⟩)
    | .error err => (file, .of (fsErrorToStatus err))

/-- The listing is taken by the first read and kept. -/
def loadEntries : Except FsError (List FileInfo) :=
  match file.dirEntries with
  | some entries => .ok entries
  | none => v.listing file.path

def readDirectoryEntry (bufferSize : Nat) (buffer : Bool) : IsoFile × Reply :=
  match file.loadEntries v with
  | .error err => (file, .of (fsErrorToStatus err))
  | .ok entries =>
      let file := { file with dirEntries := some entries }
      match entries[file.dirIndex]? with
      | none => (file, ⟨.success, some 0, [], none⟩)
      | some entry =>
          match buildFileInfoBytes entry file.blockSize with
          | .error status => (file, .of status)
          | .ok bytes =>
              let reply := copyInfoResponse bytes (some bufferSize) buffer
              if reply.status = .success then
                ({ file with dirIndex := file.dirIndex + 1, position := file.dirIndex + 1 }, reply)
              else (file, reply)

def readHandler (bufferSize : Option Nat) (buffer : Bool) : IsoFile × Reply :=
  match bufferSize with
  | none => (file, .of .invalidParameter)
  | some requested =>
      if file.info.isDir then file.readDirectoryEntry v requested buffer else file.readRegularFile v requested buffer

def getPositionHandler (position : Bool) : Reply :=
  if ¬ position then .of .invalidParameter else ⟨.success, none, [], some file.position⟩

def setPositionHandler (position : Nat) : IsoFile × Reply :=
  if file.info.isDir then
    if position ≠ 0 then (file, .of .unsupported)
    else ({ file with position := 0, dirIndex := 0 }, .of .success)
  else
    let target := if position = 2 ^ 64 - 1 then file.info.size else position
    if target > file.info.size then (file, .of .invalidParameter)
    else ({ file with position := target }, .of .success)

def efiFileInfoGuid : Nat := 0x09576e926d3f11d28e3900a0c969723b

def efiFileSystemInfoGuid : Nat := 0x09576e936d3f11d28e3900a0c969723b

def efiFileSystemVolumeLabelGuid : Nat := 0xdb47d7d3fe8111d39a350090273fc14d

def getInfoHandler (informationType : Option Nat) (bufferSize : Option Nat) (buffer : Bool) : Reply :=
  match informationType with
  | none => .of .invalidParameter
  | some guid =>
      let bytes :=
        if guid = efiFileInfoGuid then buildFileInfoBytes file.info file.blockSize
        else if guid = efiFileSystemInfoGuid then buildFileSystemInfoBytes file.volumeSize file.blockSize
        else if guid = efiFileSystemVolumeLabelGuid then buildVolumeLabelBytes
        else .error .unsupported
      match bytes with
      | .ok bytes => copyInfoResponse bytes bufferSize buffer
      | .error status => .of status

end IsoFile

/-- A call of the firmware. `this` is null or the number of a handle that an earlier call has returned. -/
inductive Call
  | openVolume (root : Bool)
  | open (this : Option Nat) (newHandle : Bool) (fileName : Option (Nat → Nat)) (openMode : Nat)
  | read (this : Option Nat) (bufferSize : Option Nat) (buffer : Bool)
  | getPosition (this : Option Nat) (position : Bool)
  | setPosition (this : Option Nat) (position : Nat)
  | getInfo (this : Option Nat) (informationType bufferSize : Option Nat) (buffer : Bool)

/-- The open handles in the order in which they were returned. -/
abbrev Handles := List IsoFile

/-- The handle a call is made on, if `this` is one. -/
def target (handles : Handles) (this : Option Nat) : Option (Nat × IsoFile) :=
  this.bind fun h => handles[h]?.map fun file => (h, file)

/-- A handler that works on the handle it is given. -/
def onHandle (handles : Handles) (this : Option Nat) (handler : IsoFile → IsoFile × Reply) : Handles × Reply :=
  match target handles this with
  | none => (handles, .of .invalidParameter)
  | some (h, file) => (handles.set h (handler file).1, (handler file).2)

def step (v : Volume) (handles : Handles) : Call → Handles × Reply
  | .openVolume root => if ¬ root then (handles, .of .invalidParameter) else (handles ++ [IsoFile.root v], .of .success)
  | .open this newHandle fileName openMode =>
      match IsoFile.openHandler v ((target handles this).map Prod.snd) newHandle fileName openMode with
      | .error status => (handles, .of status)
      | .ok child => (handles ++ [child], .of .success)
  | .read this bufferSize buffer => onHandle handles this fun file => file.readHandler v bufferSize buffer
  | .getPosition this position => onHandle handles this fun file => (file, file.getPositionHandler position)
  | .setPosition this position => onHandle handles this fun file => file.setPositionHandler position
  | .getInfo this informationType bufferSize buffer =>
      onHandle handles this fun file => (file, file.getInfoHandler informationType bufferSize buffer)

/-- A run of calls with the reply to each. -/
def run (v : Volume) (handles : Handles) : List Call → Handles × List (Call × Reply)
  | [] => (handles, [])
  | call :: calls =>
      let next := step v handles call
      let rest := run v next.1 calls
      (rest.1, (call, next.2) :: rest.2)

end NextBoot.VirtualFs
