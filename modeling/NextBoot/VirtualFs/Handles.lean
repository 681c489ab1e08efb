import NextBoot.VirtualFs.FileProtocol

namespace NextBoot.VirtualFs

open Strings Words
open Fs (FsError)

/-- What the handles rely on: the files of the image do not change, and a read gives all that is left up to its length. -/
structure ReadsFiles (fs : VirtualIsoFilesystem) (content : Text → List UInt8) : Prop where
  length_eq : ∀ path info, fs.stat path = .ok info → info.isDir = false → (content path).length = info.size
  readFile_eq : ∀ path info offset length bytes, fs.stat path = .ok info → info.isDir = false → offset ≤ info.size →
    fs.readFile path offset length = .ok bytes → bytes = ((content path).drop offset).take length

/-- The bytes a file of the volume has: those of the first replacement of its path, else those of the image. -/
def Volume.served (v : Volume) (content : Text → List UInt8) (path : Text) : List UInt8 :=
  ((v.replacements.find? fun r => r.key = pathKey path).map (·.data)).getD (content path)

/-- What a successful read gives for an entry, and with no entry left. -/
def EntryReply (blockSize : Nat) (entry : Option FileInfo) (reply : Reply) : Prop :=
  match entry with
  | none => reply = ⟨.success, some 0, [], none⟩
  | some info => ∃ bytes, buildFileInfoBytes info blockSize = .ok bytes ∧ reply = ⟨.success, some bytes.length, bytes, none⟩

/-- The handle that a call works on and may change. -/
def Call.this : Call → Option Nat
  | .openVolume _ => none
  | .open _ _ _ _ => none
  | .read this _ _ => this
  | .getPosition this _ => this
  | .setPosition this _ => this
  | .getInfo this _ _ _ => this

/-- A call that returns a handle or sets one back to its first entry. -/
def Starts (v : Volume) (handles : Handles) (call : Call) (h : Nat) : Prop :=
  call = .setPosition (some h) 0 ∨ h = handles.length ∧ handles.length < (step v handles call).1.length

/-- The replies to the successful reads of a handle. -/
def successfulReads (h : Nat) (log : List (Call × Reply)) : List Reply :=
  log.filterMap fun entry =>
    match entry.1 with
    | .read this _ _ => if this = some h ∧ entry.2.status = .success then some entry.2 else none
    | _ => none

section handles

variable {v : Volume} {content : Text → List UInt8} {file : IsoFile}

theorem fsErrorToStatus_ne (err : FsError) : fsErrorToStatus err ≠ .success := by
  cases err <;> exact Status.noConfusion

/-- What a handle records of its file when it is opened. -/
structure Backed (v : Volume) (file : IsoFile) : Prop where
  index_eq : file.replacementIndex = v.findIndex file.path
  original : v.findIndex file.path = none →
    ∃ info, v.fs.stat file.path = .ok info ∧ info.isDir = false ∧ info.size = file.info.size
  replaced : ∀ index, v.findIndex file.path = some index → ∃ data, v.data index = some data ∧ file.info.size = data.length

/-- The invariant of an open handle. -/
structure Sound (v : Volume) (file : IsoFile) : Prop where
  backed : file.info.isDir = false → Backed v file
  position_le : file.info.isDir = false → file.position ≤ file.info.size
  entries_eq : ∀ entries, file.dirEntries = some entries → v.listing file.path = .ok entries

/-- The parts of a handle that no call changes. -/
structure SameFile (file next : IsoFile) : Prop where
  path_eq : next.path = file.path
  info_eq : next.info = file.info
  index_eq : next.replacementIndex = file.replacementIndex
  blockSize_eq : next.blockSize = file.blockSize

theorem SameFile.refl : SameFile file file := ⟨rfl, rfl, rfl, rfl⟩

theorem findIndex_data (content : Text → List UInt8) {path : Text} {index : Nat} (h : v.findIndex path = some index) :
    ∃ data, v.data index = some data ∧ v.served content path = data := by
  obtain ⟨hlt, hkey, hfirst⟩ := List.findIdx?_eq_some_iff_getElem.1 h
  refine ⟨v.replacements[index].data, by simp [Volume.data, hlt], ?_⟩
  have hfind : v.replacements.find? (fun r => r.key = pathKey path) = some v.replacements[index] := by
    rw [List.find?_eq_some_iff_getElem]
    exact ⟨hkey, index, hlt, rfl, fun j hj => by simpa using hfirst j hj⟩
  simp [Volume.served, hfind]

theorem served_original {path : Text} (h : v.findIndex path = none) : v.served content path = content path := by
  have hfind : v.replacements.find? (fun r => r.key = pathKey path) = none := by
    simpa [Volume.findIndex, List.findIdx?_eq_none_iff] using h
  simp [Volume.served, hfind]

theorem Backed.size_eq (hfs : ReadsFiles v.fs content) (hb : Backed v file) :
    (v.served content file.path).length = file.info.size := by
  cases hi : v.findIndex file.path with
  | none =>
      obtain ⟨info, hstat, hdir, hsize⟩ := hb.original hi
      rw [served_original hi, hfs.length_eq _ _ hstat hdir, hsize]
  | some index =>
      obtain ⟨data, hdata, hsize⟩ := hb.replaced index hi
      obtain ⟨data', hdata', hserved⟩ := findIndex_data content hi
      rw [hdata] at hdata'
      cases hdata'
      rw [hserved, hsize]

theorem Sound.moved (hs : Sound v file) {position : Nat} (hp : position ≤ file.info.size) :
    Sound v { file with position := position } :=
  ⟨fun h => ⟨(hs.backed h).1, (hs.backed h).2, (hs.backed h).3⟩, fun _ => hp, hs.entries_eq⟩

theorem Sound.read_le (hfs : ReadsFiles v.fs content) (hs : Sound v file) (hfile : file.info.isDir = false)
    {bytes : List UInt8} {requested : Nat}
    (h : bytes = ((v.served content file.path).drop file.position).take requested) :
    file.position + bytes.length ≤ file.info.size := by
  have hp := hs.position_le hfile
  rw [h, List.length_take, List.length_drop, (hs.backed hfile).size_eq hfs]
  omega

/-- What a call leaves of a handle: nothing moves when the call fails. -/
structure Kept (v : Volume) (file next : IsoFile) (reply : Reply) : Prop where
  same : SameFile file next
  sound : Sound v next
  unmoved : reply.status ≠ .success → next.position = file.position ∧ next.dirIndex = file.dirIndex

theorem Sound.kept (hs : Sound v file) (reply : Reply) : Kept v file file reply :=
  ⟨SameFile.refl, hs, fun _ => ⟨rfl, rfl⟩⟩

theorem fetch_eq (hfs : ReadsFiles v.fs content) (hb : Backed v file) (hp : file.position ≤ file.info.size)
    {requested : Nat} {bytes : List UInt8}
    (h : (match file.replacementIndex with
      | some index => file.readReplacementFile v index requested
      | none => v.fs.readFile file.path file.position requested) = .ok bytes) :
    bytes = ((v.served content file.path).drop file.position).take requested := by
  rw [hb.index_eq] at h
  cases hi : v.findIndex file.path with
  | none =>
      obtain ⟨info, hstat, hdir, hsize⟩ := hb.original hi
      rw [hi] at h
      rw [served_original hi]
      exact hfs.readFile_eq _ _ _ _ _ hstat hdir (hsize ▸ hp) h
  | some index =>
      obtain ⟨data, hdata, hserved⟩ := findIndex_data content hi
      rw [hi] at h
      simp only [IsoFile.readReplacementFile, hdata] at h
      rw [hserved]
      split at h
      · rename_i hend
        cases h
        rw [List.drop_eq_nil_of_le hend, List.take_nil]
      · cases h
        rfl

/-- A read of a file gives the bytes at the position and moves over them, or leaves the handle. -/
theorem readRegularFile_spec (hfs : ReadsFiles v.fs content) (hs : Sound v file) (hfile : file.info.isDir = false)
    (requested : Nat) (buffer : Bool) :
    ((file.readRegularFile v requested buffer).2.status ≠ .success ∧ (file.readRegularFile v requested buffer).1 = file) ∨
    ∃ bytes, bytes = ((v.served content file.path).drop file.position).take requested ∧
      file.readRegularFile v requested buffer =
        ({ file with position := file.position + bytes.length }, ⟨.success, some bytes.length, bytes, none⟩) := by
  have hb := hs.backed hfile
  have hp := hs.position_le hfile
  unfold IsoFile.readRegularFile
  split
  · rename_i hz
    exact .inr ⟨[], by rw [hz, List.take_zero], rfl⟩
  · split
    · exact .inl ⟨Status.noConfusion, rfl⟩
    · dsimp only
      split
      · rename_i bytes hfetch
        have hbytes := fetch_eq hfs hb hp hfetch
        have hle := hs.read_le hfs hfile hbytes
        have hlt := file.info.size_lt
        refine .inr ⟨bytes, hbytes, ?_⟩
        rw [Nat.min_eq_left (by omega)]
      · exact .inl ⟨fsErrorToStatus_ne _, rfl⟩

theorem copyInfoResponse_success {bytes : List UInt8} {provided : Nat} {buffer : Bool}
    (h : (copyInfoResponse bytes (some provided) buffer).status = .success) :
    copyInfoResponse bytes (some provided) buffer = ⟨.success, some bytes.length, bytes, none⟩ := by
  simp only [copyInfoResponse] at h ⊢
  split at h
  · cases h
  · rename_i hfit
    rw [if_neg hfit]

theorem buildFileInfoBytes_error {info : FileInfo} {blockSize : Nat} {status : Status}
    (h : buildFileInfoBytes info blockSize = .error status) : status ≠ .success := by
  unfold buildFileInfoBytes withName at h
  split at h
  · cases h
    exact Status.noConfusion
  · cases h

theorem loadEntries_eq (hs : Sound v file) : file.loadEntries v = v.listing file.path := by
  unfold IsoFile.loadEntries
  cases he : file.dirEntries with
  | none => rfl
  | some entries => exact (hs.entries_eq entries he).symm

/-- A read of a directory gives the next entry and steps over it, or moves nothing. -/
theorem readDirectoryEntry_spec (hs : Sound v file) (hdir : file.info.isDir = true) (bufferSize : Nat) (buffer : Bool) :
    Kept v file (file.readDirectoryEntry v bufferSize buffer).1 (file.readDirectoryEntry v bufferSize buffer).2 ∧
    ((file.readDirectoryEntry v bufferSize buffer).2.status = .success →
      ∃ entries, v.listing file.path = .ok entries ∧
        EntryReply file.blockSize entries[file.dirIndex]? (file.readDirectoryEntry v bufferSize buffer).2 ∧
        (file.readDirectoryEntry v bufferSize buffer).1.dirIndex =
          if file.dirIndex < entries.length then file.dirIndex + 1 else file.dirIndex) := by
  unfold IsoFile.readDirectoryEntry
  rw [loadEntries_eq hs]
  cases hl : v.listing file.path with
  | error err => exact ⟨hs.kept _, fun h => absurd h (fsErrorToStatus_ne err)⟩
  | ok entries =>
      have hloaded : ∀ (position dirIndex : Nat),
          Sound v { file with dirEntries := some entries, position := position, dirIndex := dirIndex } := fun _ _ =>
        ⟨fun h => absurd hdir (by rw [show file.info.isDir = false from h]; decide),
          fun h => absurd hdir (by rw [show file.info.isDir = false from h]; decide),
          fun _ h => by cases h; exact hl⟩
      dsimp only
      cases he : entries[file.dirIndex]? with
      | none =>
          refine ⟨⟨⟨rfl, rfl, rfl, rfl⟩, hloaded _ _, fun _ => ⟨rfl, rfl⟩⟩, fun _ => ⟨entries, rfl, ?_, ?_⟩⟩
          · rw [he]
            rfl
          · rw [if_neg (Nat.not_lt.2 (List.getElem?_eq_none_iff.1 he))]
      | some entry =>
          dsimp only
          cases hbytes : buildFileInfoBytes entry file.blockSize with
          | error status =>
              refine ⟨⟨⟨rfl, rfl, rfl, rfl⟩, hloaded _ _, fun _ => ⟨rfl, rfl⟩⟩, fun h => ?_⟩
              exact absurd h (buildFileInfoBytes_error hbytes)
          | ok bytes =>
              dsimp only
              split
              · rename_i hok
                refine ⟨⟨⟨rfl, rfl, rfl, rfl⟩, hloaded _ _, fun h => absurd hok h⟩, fun _ => ⟨entries, rfl, ?_, ?_⟩⟩
                · rw [he]
                  exact ⟨bytes, hbytes, copyInfoResponse_success hok⟩
                · rw [if_pos (List.getElem?_eq_some_iff.1 he).1]
              · rename_i hfail
                exact ⟨⟨⟨rfl, rfl, rfl, rfl⟩, hloaded _ _, fun _ => ⟨rfl, rfl⟩⟩, fun h => absurd h hfail⟩

theorem setPositionHandler_info (file : IsoFile) (position : Nat) :
    (file.setPositionHandler position).1.info = file.info := by
  unfold IsoFile.setPositionHandler
  dsimp only
  generalize (if position = 2 ^ 64 - 1 then file.info.size else position) = target
  split
  · split <;> rfl
  · split <;> rfl

theorem setPositionHandler_spec (hs : Sound v file) (position : Nat) :
    Kept v file (file.setPositionHandler position).1 (file.setPositionHandler position).2 := by
  unfold IsoFile.setPositionHandler
  split
  · rename_i hdir
    split
    · exact hs.kept _
    · exact ⟨⟨rfl, rfl, rfl, rfl⟩, ⟨fun h => absurd hdir (by simp_all), fun _ => Nat.zero_le _, hs.entries_eq⟩,
        fun h => absurd rfl h⟩
  · dsimp only
    generalize (if position = 2 ^ 64 - 1 then file.info.size else position) = target
    split
    · exact hs.kept _
    · rename_i hle
      exact ⟨⟨rfl, rfl, rfl, rfl⟩, hs.moved (Nat.not_lt.1 hle), fun h => absurd rfl h⟩

theorem readHandler_spec (hfs : ReadsFiles v.fs content) (hs : Sound v file) (bufferSize : Option Nat) (buffer : Bool) :
    Kept v file (file.readHandler v bufferSize buffer).1 (file.readHandler v bufferSize buffer).2 := by
  unfold IsoFile.readHandler
  cases bufferSize with
  | none => exact hs.kept _
  | some requested =>
      dsimp only
      split
      · rename_i hdir
        exact (readDirectoryEntry_spec hs hdir requested buffer).1
      · rename_i hdir
        have hfile : file.info.isDir = false := Bool.eq_false_iff.2 hdir
        rcases readRegularFile_spec hfs hs hfile requested buffer with ⟨-, hsame⟩ | ⟨bytes, hbytes, hread⟩
        · rw [hsame]
          exact hs.kept _
        · rw [hread]
          exact ⟨⟨rfl, rfl, rfl, rfl⟩, hs.moved (hs.read_le hfs hfile hbytes), fun h => absurd rfl h⟩

/-- What a call does to the handle it works on. -/
def serve (v : Volume) (file : IsoFile) : Call → IsoFile × Reply
  | .read _ bufferSize buffer => file.readHandler v bufferSize buffer
  | .getPosition _ position => (file, file.getPositionHandler position)
  | .setPosition _ position => file.setPositionHandler position
  | .getInfo _ informationType bufferSize buffer => (file, file.getInfoHandler informationType bufferSize buffer)
  | _ => (file, .of .invalidParameter)

theorem serve_kept (hfs : ReadsFiles v.fs content) (hs : Sound v file) (call : Call) :
    Kept v file (serve v file call).1 (serve v file call).2 := by
  cases call with
  | openVolume root => exact hs.kept _
  | «open» this newHandle fileName openMode => exact hs.kept _
  | read this bufferSize buffer => exact readHandler_spec hfs hs bufferSize buffer
  | getPosition this position => exact hs.kept _
  | setPosition this position => exact setPositionHandler_spec hs position
  | getInfo this informationType bufferSize buffer => exact hs.kept _

/-- A handle as it is returned. -/
structure Opened (v : Volume) (file : IsoFile) : Prop where
  sound : Sound v file
  dirIndex_eq : file.dirIndex = 0

theorem opened_new {path : Text} {info : FileInfo} {index : Option Nat} {volumeSize blockSize : Nat}
    (hb : info.isDir = false → Backed v (IsoFile.new path info index volumeSize blockSize)) :
    Opened v (IsoFile.new path info index volumeSize blockSize) :=
  ⟨⟨hb, fun _ => Nat.zero_le _, nofun⟩, rfl⟩

theorem opened_root : Opened v (IsoFile.root v) := opened_new nofun

/-- Opening gives a handle at its start or a status that says it failed. -/
def Outcome (v : Volume) : Except Status IsoFile → Prop
  | .error status => status ≠ .success
  | .ok child => Opened v child

theorem openHandler_outcome (this : Option IsoFile) (newHandle : Bool) (fileName : Option (Nat → Nat)) (openMode : Nat) :
    Outcome v (IsoFile.openHandler v this newHandle fileName openMode) := by
  unfold IsoFile.openHandler
  split
  case h_2 => exact Status.noConfusion
  split
  · exact Status.noConfusion
  split
  · exact Status.noConfusion
  cases this with
  | none => exact Status.noConfusion
  | some parent =>
      dsimp only
      split
      · exact Status.noConfusion
      split
      · exact Status.noConfusion
      rename_i requested _
      split
      · exact fsErrorToStatus_ne _
      rename_i info hstat
      split
      · rename_i hindex
        apply opened_new
        intro hfile
        rw [hfile] at hindex
        exact ⟨hindex.symm, fun _ => ⟨info, hstat, hfile, rfl⟩, fun i hi => nomatch hindex.symm.trans hi⟩
      · rename_i index hindex
        apply opened_new
        intro _
        split at hindex
        · cases hindex
        · refine ⟨hindex.symm, fun hnone => (nomatch hindex.symm.trans hnone), fun i hi => ?_⟩
          cases hindex.symm.trans hi
          obtain ⟨hlt, -, -⟩ := List.findIdx?_eq_some_iff_getElem.1 hindex
          refine ⟨v.replacements[index].data, by simp [Volume.data, hlt], ?_⟩
          simp [IsoFile.new, Volume.applyToFileInfo, List.getElem?_eq_getElem hlt]

/-- What a call of the firmware does to the open handles. -/
inductive Moves (v : Volume) (handles : Handles) (call : Call) : Handles × Reply → Prop
  | served (h : Nat) (file : IsoFile) : call.this = some h → handles[h]? = some file →
      Moves v handles call (handles.set h (serve v file call).1, (serve v file call).2)
  | opened (child : IsoFile) : call.this = none → Opened v child → Moves v handles call (handles ++ [child], .of .success)
  | refused (status : Status) : status ≠ .success → (∀ h file, call.this = some h → handles[h]? ≠ some file) →
      Moves v handles call (handles, .of status)

theorem onHandle_moves {handles : Handles} {call : Call} :
    Moves v handles call (onHandle handles call.this fun file => serve v file call) := by
  unfold onHandle target
  cases hthis : call.this with
  | none => exact .refused _ Status.noConfusion (fun h _ hh => by rw [hthis] at hh; cases hh)
  | some h =>
      cases hfile : handles[h]? with
      | none =>
          simp only [Option.bind_some, hfile, Option.map_none]
          exact .refused _ Status.noConfusion (fun h' file hh => by
            rw [hthis] at hh; cases hh; rw [hfile]; exact nofun)
      | some file =>
          simp only [Option.bind_some, hfile, Option.map_some]
          exact .served h file hthis hfile

theorem step_moves (handles : Handles) (call : Call) : Moves v handles call (step v handles call) := by
  cases call with
  | openVolume root =>
      cases root with
      | false => exact .refused _ Status.noConfusion (fun _ _ h => nomatch h)
      | true => exact .opened _ rfl opened_root
  | «open» this newHandle fileName openMode =>
      have hout := openHandler_outcome (v := v) ((target handles this).map Prod.snd) newHandle fileName openMode
      simp only [step]
      cases hopen : IsoFile.openHandler v ((target handles this).map Prod.snd) newHandle fileName openMode with
      | error status =>
          rw [hopen] at hout
          exact .refused _ hout (fun _ _ h => nomatch h)
      | ok child =>
          rw [hopen] at hout
          exact .opened _ rfl hout
  | read this bufferSize buffer => exact onHandle_moves
  | getPosition this position => exact onHandle_moves
  | setPosition this position => exact onHandle_moves
  | getInfo this informationType bufferSize buffer => exact onHandle_moves

/-- A call on a handle does what the handle alone decides. -/
theorem step_served {handles : Handles} {call : Call} {h : Nat} (hthis : call.this = some h)
    (hfile : handles[h]? = some file) :
    (step v handles call).2 = (serve v file call).2 ∧ (step v handles call).1[h]? = some (serve v file call).1 := by
  have hm := step_moves (v := v) handles call
  generalize step v handles call = result at hm
  cases hm with
  | served h' file' hthis' hfile' =>
      cases hthis.symm.trans hthis'
      cases hfile.symm.trans hfile'
      exact ⟨rfl, List.getElem?_set_self (List.getElem?_eq_some_iff.1 hfile).1⟩
  | opened child hnone => rw [hthis] at hnone; cases hnone
  | refused status _ hno => exact absurd hfile (hno h file hthis)

/-- No call changes the handles it does not work on. -/
theorem step_frame {handles : Handles} {call : Call} {h : Nat} (hthis : call.this ≠ some h)
    (hfile : handles[h]? = some file) : (step v handles call).1[h]? = some file := by
  have hm := step_moves (v := v) handles call
  generalize step v handles call = result at hm
  cases hm with
  | served h' file' hthis' =>
      have hne : h' ≠ h := by
        rintro rfl
        exact hthis hthis'
      rw [List.getElem?_set_ne hne]
      exact hfile
  | opened child => rw [List.getElem?_append_left (List.getElem?_eq_some_iff.1 hfile).1]; exact hfile
  | refused => exact hfile

theorem step_sound (hfs : ReadsFiles v.fs content) {handles : Handles} (hs : ∀ file ∈ handles, Sound v file)
    (call : Call) : ∀ file ∈ (step v handles call).1, Sound v file := by
  have hm := step_moves (v := v) handles call
  generalize step v handles call = result at hm
  cases hm with
  | served h file _ hfile =>
      intro next hnext
      rcases List.mem_or_eq_of_mem_set hnext with hold | rfl
      · exact hs next hold
      · exact (serve_kept hfs (hs file (List.mem_of_getElem? hfile)) call).sound
  | opened child _ hopened =>
      intro next hnext
      rcases List.mem_append.1 hnext with hold | hnew
      · exact hs next hold
      · rw [List.mem_singleton.1 hnew]
        exact hopened.sound
  | refused => exact hs

theorem run_sound (hfs : ReadsFiles v.fs content) (calls : List Call) :
    ∀ handles : Handles, (∀ file ∈ handles, Sound v file) → ∀ file ∈ (run v handles calls).1, Sound v file := by
  induction calls with
  | nil => exact fun _ hs => hs
  | cons call calls ih => exact fun handles hs => ih _ (step_sound hfs hs call)

/-- The number of entries read since the start, which no read past the end changes. -/
def Cursor (v : Volume) (file : IsoFile) (count : Nat) : Prop :=
  ∀ entries, v.listing file.path = .ok entries → file.dirIndex = min count entries.length

theorem successfulReads_cons (h : Nat) (call : Call) (reply : Reply) (log : List (Call × Reply)) :
    successfulReads h ((call, reply) :: log) = successfulReads h [(call, reply)] ++ successfulReads h log :=
  List.filterMap_append (l := [(call, reply)])

theorem Cursor.unmoved {next : IsoFile} {count : Nat} (hc : Cursor v file count) (hpath : next.path = file.path)
    (hindex : next.dirIndex = file.dirIndex) : Cursor v next count := by
  intro entries hl
  rw [hindex]
  exact hc entries (hpath ▸ hl)

/-- A call on a directory other than a seek to its start reads the entry at the cursor or leaves the cursor. -/
theorem serve_directory (hs : Sound v file) (hdir : file.info.isDir = true) {count : Nat} (hc : Cursor v file count)
    {call : Call} {h : Nat} (hthis : call.this = some h) (hno : call ≠ .setPosition (some h) 0) :
    successfulReads h [(call, (serve v file call).2)] = [] ∧ Cursor v (serve v file call).1 count ∨
    ∃ entries reply, v.listing file.path = .ok entries ∧ EntryReply file.blockSize entries[count]? reply ∧
      successfulReads h [(call, (serve v file call).2)] = [reply] ∧ Cursor v (serve v file call).1 (count + 1) := by
  cases call with
  | openVolume => cases hthis
  | «open» => cases hthis
  | getPosition this position => exact .inl ⟨rfl, hc⟩
  | getInfo this informationType bufferSize buffer => exact .inl ⟨rfl, hc⟩
  | setPosition this position =>
      have hthis' : this = some h := hthis
      have hne : position ≠ 0 := by
        rintro rfl
        exact hno (by rw [hthis'])
      refine .inl ⟨rfl, ?_⟩
      simp only [serve, IsoFile.setPositionHandler, hdir, hne, if_true, ne_eq, not_false_eq_true]
      exact hc
  | read this bufferSize buffer =>
      have hthis' : this = some h := hthis
      cases bufferSize with
      | none =>
          refine .inl ⟨?_, hc⟩
          simp [successfulReads, serve, IsoFile.readHandler, Reply.of]
      | some requested =>
          obtain ⟨hkept, hread⟩ := readDirectoryEntry_spec hs hdir requested buffer
          have hserve : serve v file (.read this (some requested) buffer) = file.readDirectoryEntry v requested buffer := by
            simp [serve, IsoFile.readHandler, hdir]
          rw [hserve]
          by_cases hok : (file.readDirectoryEntry v requested buffer).2.status = .success
          · obtain ⟨entries, hl, hreply, hnext⟩ := hread hok
            have hindex := hc entries hl
            have hsame : entries[file.dirIndex]? = entries[count]? := by
              rw [hindex]
              rcases Nat.le_total count entries.length with hle | hle
              · rw [Nat.min_eq_left hle]
              · rw [Nat.min_eq_right hle, List.getElem?_eq_none (Nat.le_refl _), List.getElem?_eq_none hle]
            rw [hsame] at hreply
            refine .inr ⟨entries, _, hl, hreply, by simp [successfulReads, hthis', hok], ?_⟩
            intro entries' hl'
            rw [hkept.same.path_eq, hl] at hl'
            cases hl'
            rw [hnext]
            split <;> omega
          · refine .inl ⟨by simp [successfulReads, hok], ?_⟩
            exact hc.unmoved hkept.same.path_eq (hkept.unmoved hok).2

theorem successfulReads_other {call : Call} {h : Nat} (hthis : call.this ≠ some h) (reply : Reply) :
    successfulReads h [(call, reply)] = [] := by
  cases call with
  | read this bufferSize buffer =>
      have hne : this ≠ some h := hthis
      simp [successfulReads, hne]
  | _ => rfl

/-- The successful reads of a directory handle go through its entries from the cursor on. -/
theorem run_directory (hfs : ReadsFiles v.fs content) {h : Nat} (calls : List Call)
    (hno : ∀ call ∈ calls, call ≠ .setPosition (some h) 0) :
    ∀ (handles : Handles) (file : IsoFile) (count : Nat), (∀ file ∈ handles, Sound v file) → handles[h]? = some file →
      file.info.isDir = true → Cursor v file count →
      ∀ i reply, (successfulReads h (run v handles calls).2)[i]? = some reply →
        ∃ entries, v.listing file.path = .ok entries ∧ EntryReply file.blockSize entries[count + i]? reply := by
  induction calls with
  | nil => exact fun _ _ _ _ _ _ _ i reply h => nomatch h
  | cons call calls ih =>
      intro handles file count hs hfile hdir hc i reply hi
      have ih := ih fun call hcall => hno call (List.mem_cons_of_mem _ hcall)
      have hnext := step_sound hfs hs call
      rw [run, successfulReads_cons] at hi
      by_cases hthis : call.this = some h
      · obtain ⟨hreply, hat⟩ := step_served (v := v) hthis hfile
        have hsame := (serve_kept hfs (hs file (List.mem_of_getElem? hfile)) call).same
        have hdir' : (serve v file call).1.info.isDir = true := by rw [hsame.info_eq]; exact hdir
        rw [hreply] at hi
        rcases serve_directory (hs file (List.mem_of_getElem? hfile)) hdir hc hthis (hno call List.mem_cons_self) with
          ⟨hnil, hc'⟩ | ⟨entries, first, hl, hfirst, hone, hc'⟩
        · rw [hnil, List.nil_append] at hi
          have hrest := ih _ _ count hnext hat hdir' hc' i reply hi
          rw [hsame.path_eq, hsame.blockSize_eq] at hrest
          exact hrest
        · rw [hone] at hi
          cases i with
          | zero =>
              cases hi
              exact ⟨entries, hl, hfirst⟩
          | succ i =>
              have hrest := ih _ _ (count + 1) hnext hat hdir' hc' i reply hi
              rw [hsame.path_eq, hsame.blockSize_eq, Nat.add_right_comm] at hrest
              exact hrest
      · rw [successfulReads_other hthis, List.nil_append] at hi
        exact ih _ _ count hnext (step_frame hthis hfile) hdir hc i reply hi

theorem starts_cursor {handles : Handles} {call : Call} {h : Nat} (hstart : Starts v handles call h)
    (hfile : (step v handles call).1[h]? = some file) (hdir : file.info.isDir = true) : Cursor v file 0 := by
  have hzero : file.dirIndex = 0 := by
    have hm := step_moves (v := v) handles call
    rcases hstart with rfl | ⟨hlast, hgrown⟩
    · cases hold : handles[h]? with
      | none =>
          generalize step v handles (.setPosition (some h) 0) = result at hm hfile
          cases hm with
          | served h' file' hthis hfile' => cases hthis; rw [hold] at hfile'; cases hfile'
          | opened child hthis => cases hthis
          | refused => rw [hold] at hfile; cases hfile
      | some old =>
          rw [(step_served rfl hold).2] at hfile
          cases hfile
          have hold' : old.info.isDir = true := (setPositionHandler_info old 0) ▸ hdir
          simp [serve, IsoFile.setPositionHandler, hold']
    · generalize step v handles call = result at hm hfile hgrown
      cases hm with
      | served => simp at hgrown
      | opened child _ hopened =>
          rw [hlast, List.getElem?_concat_length] at hfile
          cases hfile
          exact hopened.dirIndex_eq
      | refused => exact absurd hgrown (Nat.lt_irrefl _)
  intro entries _
  rw [hzero, Nat.zero_min]

end handles

/-- Every handle of a volume whose files do not change reads its file or its directory, whatever calls are made. -/
theorem virtual_handles (v : Volume) (content : Text → List UInt8) (hfs : ReadsFiles v.fs content) (calls : List Call) :
    let handles : Handles := (run v [] calls).1
    (∀ (h : Nat) (file : IsoFile), handles[h]? = some file → file.info.isDir = false →
      (v.served content file.path).length = file.info.size ∧ file.position ≤ file.info.size) ∧
    (∀ (h : Nat) (file : IsoFile) bufferSize buffer, handles[h]? = some file → file.info.isDir = false →
      let next := step v handles (.read (some h) bufferSize buffer)
      next.2.status = .success →
        ∃ requested bytes, bufferSize = some requested ∧
          bytes = ((v.served content file.path).drop file.position).take requested ∧
          next.2 = ⟨.success, some bytes.length, bytes, none⟩ ∧
          next.1[h]? = some { file with position := file.position + bytes.length }) ∧
    (∀ (h : Nat) (file : IsoFile) call, handles[h]? = some file → (step v handles call).2.status ≠ .success →
      ∃ next, (step v handles call).1[h]? = some next ∧
        next.position = file.position ∧ next.dirIndex = file.dirIndex) ∧
    (∀ (h : Nat) start after (file : IsoFile), Starts v handles start h → (∀ call ∈ after, call ≠ .setPosition (some h) 0) →
      (step v handles start).1[h]? = some file → file.info.isDir = true →
      ∀ (i : Nat) reply, (successfulReads h (run v (step v handles start).1 after).2)[i]? = some reply →
        ∃ entries, v.listing file.path = .ok entries ∧ EntryReply file.blockSize entries[i]? reply) ∧
    (∀ (h : Nat) (file : IsoFile) call, handles[h]? = some file → call.this ≠ some h → (step v handles call).1[h]? = some file) ∧
    (∀ (h : Nat) (file : IsoFile) call (others : Handles), handles[h]? = some file → others[h]? = some file → call.this = some h →
      (step v others call).2 = (step v handles call).2 ∧ (step v others call).1[h]? = (step v handles call).1[h]?) := by
  intro handles
  have hsound : ∀ file ∈ handles, Sound v file := run_sound hfs calls [] (fun _ h => nomatch h)
  have hat : ∀ (h : Nat) (file : IsoFile), handles[h]? = some file → Sound v file := fun h file hfile => hsound file (List.mem_of_getElem? hfile)
  refine ⟨?_, ?_, ?_, ?_, ?_, ?_⟩
  · intro h file hfile hdir
    exact ⟨((hat h file hfile).backed hdir).size_eq hfs, (hat h file hfile).position_le hdir⟩
  · intro h file bufferSize buffer hfile hdir next hok
    have hthis : (Call.read (some h) bufferSize buffer).this = some h := rfl
    obtain ⟨hreply, hnext⟩ := step_served (v := v) hthis hfile
    change next.2 = (file.readHandler v bufferSize buffer).2 at hreply
    change next.1[h]? = some (file.readHandler v bufferSize buffer).1 at hnext
    rw [hreply] at hok ⊢
    rw [hnext]
    cases bufferSize with
    | none => cases hok
    | some requested =>
        have hread : file.readHandler v (some requested) buffer = file.readRegularFile v requested buffer := by
          simp [IsoFile.readHandler, hdir]
        rw [hread] at hok ⊢
        rcases readRegularFile_spec hfs (hat h file hfile) hdir requested buffer with ⟨hne, -⟩ | ⟨bytes, hbytes, heq⟩
        · exact absurd hok hne
        · exact ⟨requested, bytes, rfl, hbytes, by rw [heq], by rw [heq]⟩
  · intro h file call hfile hfail
    by_cases hthis : call.this = some h
    · obtain ⟨hreply, hnext⟩ := step_served (v := v) hthis hfile
      rw [hreply] at hfail
      exact ⟨_, hnext, (serve_kept hfs (hat h file hfile) call).unmoved hfail⟩
    · exact ⟨file, step_frame hthis hfile, rfl, rfl⟩
  · intro h start after file hstart hno hfile hdir i reply hi
    have hrun := run_directory hfs after hno _ file 0 (step_sound hfs hsound start) hfile hdir
      (starts_cursor hstart hfile hdir) i reply hi
    rw [Nat.zero_add] at hrun
    exact hrun
  · exact fun h file call hfile hthis => step_frame hthis hfile
  · intro h file call others hfile hother hthis
    rw [(step_served hthis hother).1, (step_served hthis hother).2, (step_served hthis hfile).1,
      (step_served hthis hfile).2]
    exact ⟨rfl, rfl⟩

def sampleAttributes (directory : Bool) : FileAttributes := ⟨false, false, false, false, directory, false⟩

/-- An image with one file of three bytes. -/
def sampleImage : VirtualIsoFilesystem where
  stat path :=
    if path = ['/'] then .ok ⟨['/'], 0, true, sampleAttributes true, 0, false, Words.zero_lt_u64⟩
    else if path = ['/', 'a'] then .ok ⟨['a'], 3, false, sampleAttributes false, 20, true, Words.three_lt_u64⟩
    else .error .fileNotFound
  readDir path :=
    if path = ['/'] then .ok [⟨['a'], 3, false, sampleAttributes false, 20, true, Words.three_lt_u64⟩] else .error .directoryNotFound
  readFile path offset length :=
    if path = ['/', 'a'] then .ok (([1, 2, 3].drop offset).take length) else .error .fileNotFound

def sampleContent (path : Text) : List UInt8 := if path = ['/', 'a'] then [1, 2, 3] else []

theorem replacement_lt : [(9 : UInt8), 8].length < 2 ^ 64 := by decide

/-- The file of the sample image is replaced by one of two bytes. -/
def sampleVolume : Volume := ⟨sampleImage, [⟨['/', 'A'], [9, 8], replacement_lt⟩], 4096, 2048⟩

def sampleName (index : Nat) : Nat := if index = 0 then 'a'.toNat else 0

/-- The volume and its file are opened, and the file is read from its second byte on. -/
def sampleCalls : List Call :=
  [.openVolume true, .open (some 0) true (some sampleName) 1, .setPosition (some 1) 1, .read (some 1) (some 5) true]

theorem sampleImage_reads : ReadsFiles sampleVolume.fs sampleContent := by
  constructor
  · intro path info hstat hdir
    simp only [sampleVolume, sampleImage] at hstat
    split at hstat
    · cases hstat
      cases hdir
    · split at hstat
      · rename_i hpath
        cases hstat
        simp [sampleContent, hpath]
      · cases hstat
  · intro path info offset length bytes _ _ _ hread
    simp only [sampleVolume, sampleImage] at hread
    split at hread
    · rename_i hpath
      cases hread
      simp [sampleContent, hpath]
    · cases hread

theorem sampleVolume_handles :
    (run sampleVolume [] sampleCalls).2.map (fun entry => entry.2.bytes) = [[], [], [], [8]] ∧
    ∀ file, (run sampleVolume [] sampleCalls).1[1]? = some file → file.info.isDir = false →
      (sampleVolume.served sampleContent file.path).length = file.info.size ∧ file.position ≤ file.info.size :=
  ⟨by decide, (virtual_handles sampleVolume sampleContent sampleImage_reads sampleCalls).1 1⟩

end NextBoot.VirtualFs
