import Lox.Proofs.Files.Effects
import Lox.Proofs.Files.Streams

/-!
What names and streams stand for. Only files that are kept: so it is at the start, and so natives
leave it. Then what is written to a stream is there.
-/

namespace Lox

open Text FileSystem

namespace FileSystem

/-- Every file that a name or a stream stands for is kept. -/
structure Kept (fs : FileSystem) : Prop where
  names : ∀ {p id}, (p, Node.file id) ∈ fs.nodes → id < fs.contents.size
  streams : ∀ {id h}, fs.handle? id = some h → h.file < fs.contents.size

variable {fs fs' : FileSystem}

namespace Kept

theorem of_eq (hk : fs.Kept) (names : fs'.nodes = fs.nodes)
    (size : fs'.contents.size = fs.contents.size)
    (streams : ∀ {id h'}, fs'.handle? id = some h' → ∃ h, fs.handle? id = some h ∧ h'.file = h.file) :
    fs'.Kept where
  names hm := by
    rw [names] at hm
    rw [size]
    exact hk.names hm
  streams hs := by
    obtain ⟨h, found, file⟩ := streams hs
    rw [size, file]
    exact hk.streams found

theorem setContent (hk : fs.Kept) (id : FileId) (bytes : Bytes) : (fs.setContent id bytes).Kept :=
  hk.of_eq rfl (size_setContent id bytes) fun hs => ⟨_, hs, rfl⟩

theorem modifyHandle (hk : fs.Kept) (id : HandleId) {f : Handle → Handle}
    (file : ∀ h, (f h).file = h.file) : (fs.modifyHandle id f).Kept := by
  refine hk.of_eq rfl rfl fun {other h'} hs => ?_
  rw [handle?_modifyHandle] at hs
  split at hs
  · obtain ⟨h, found, rfl⟩ := Option.map_eq_some_iff.mp hs
    exact ⟨h, found, file h⟩
  · exact ⟨h', hs, rfl⟩

theorem create (hk : fs.Kept) (p : Path) : (fs.create p).2.Kept where
  names {q id} hm := by
    have size : (fs.create p).2.contents.size = fs.contents.size + 1 := Array.size_push ..
    rw [size]
    rcases List.mem_append.mp hm with hm | hm
    · exact Nat.lt_succ_of_lt (hk.names hm)
    · obtain ⟨-, ⟨⟩⟩ := Prod.mk.inj (List.mem_singleton.mp hm)
      exact Nat.lt_succ_self _
  streams {id h} hs := by
    have size : (fs.create p).2.contents.size = fs.contents.size + 1 := Array.size_push ..
    have found : fs.handle? id = some h := hs
    rw [size]
    exact Nat.lt_succ_of_lt (hk.streams found)

theorem openFile (hk : fs.Kept) {path : String} {access : Access} {id : FileId}
    (h : fs.openFile path access = .ok (id, fs')) : fs'.Kept ∧ id < fs'.contents.size := by
  rcases of_openFile h with ⟨p, made⟩ | ⟨p, found, rfl⟩
  · have kept := hk.create p
    rw [made] at kept
    cases made
    refine ⟨kept, ?_⟩
    simp
  · have kept := hk.names (mem_of_node? found)
    split
    · exact ⟨hk.setContent id [], by rwa [size_setContent]⟩
    · exact ⟨hk, kept⟩

theorem write (hk : fs.Kept) (id : HandleId) (h : Handle) (bytes : Bytes) :
    (fs.write id h bytes).Kept := by
  unfold FileSystem.write
  split
  · exact hk
  · exact (hk.setContent _ _).modifyHandle id fun _ => rfl

theorem openHandle (hk : fs.Kept) {path : String} {access : Access} {id : HandleId}
    (h : fs.openHandle path access = .ok (id, fs')) : fs'.Kept := by
  obtain ⟨file, fs₁, opened, -, rfl⟩ := of_openHandle h
  obtain ⟨kept, inside⟩ := hk.openFile opened
  refine ⟨kept.names, fun {id h} hs => ?_⟩
  have hs : (fs₁.handles.push _)[id]? = some h := hs
  rw [Array.getElem?_push] at hs
  split at hs
  · cases hs
    exact inside
  · exact kept.streams hs

theorem writeAll (hk : fs.Kept) {path : String} {bytes : Bytes}
    (h : fs.writeAll path bytes = .ok fs') : fs'.Kept := by
  obtain ⟨file, fs₁, opened, rfl⟩ := of_writeAll h
  exact (hk.openFile opened).1.setContent _ _

/-- Directories can be added at will. -/
theorem directories (hk : fs.Kept) (ps : List Path) :
    Kept { fs with nodes := fs.nodes ++ ps.map (·, Node.directory) } where
  names hm := by
    rcases List.mem_append.mp hm with hm | hm
    · exact hk.names hm
    · obtain ⟨q, -, eq⟩ := List.mem_map.mp hm
      cases eq
  streams := hk.streams

theorem add (hk : fs.Kept) (p : Path) (content : Option Bytes) : (fs.add p content).Kept := by
  unfold FileSystem.add
  extract_lets missing fs₁
  have kept : fs₁.Kept := hk.directories missing
  split
  · exact kept.directories [p]
  · exact (kept.create p).setContent _ _
  · exact kept.setContent _ _
  · exact kept

end Kept

/-- A file system keeps the files that it starts with. -/
theorem kept_ofEntries (entries : List (Path × Option Bytes)) : (ofEntries entries).Kept := by
  have empty : Kept {} := ⟨fun hm => absurd hm List.not_mem_nil, fun hs => by simp [handle?] at hs⟩
  have all (fs : FileSystem) (hk : fs.Kept) :
      (entries.foldl (fun fs entry => fs.add (fs.working ++ entry.1) entry.2) fs).Kept := by
    induction entries generalizing fs with
    | nil => exact hk
    | cons entry entries ih =>
      rw [List.foldl_cons]
      exact ih _ (hk.add _ _)
  exact all _ (empty.add _ none)

end FileSystem

variable {ρ κ : Type}

theorem Native.Effect.kept {host : Host} {r : EStateM.Result Native.Fault Host (Value ρ κ)}
    (h : Native.Effect host r) (hk : host.files.Kept) : (ending r).files.Kept := by
  cases h with
  | rejects | fails | answers => exact hk
  | writesAll h => exact hk.writeAll h
  | opens h => exact hk.openHandle h
  | closes | moves | movesAndFails => exact hk.modifyHandle _ fun _ => rfl
  | writes found isOpen bytes => exact hk.write _ _ bytes

theorem Native.serve_kept (n : Native) (vs : List (Value ρ EnvId)) {host : Host}
    (hk : host.files.Kept) : (n.serve vs host).2.files.Kept := by
  by_cases h : vs.length = n.arity
  · rw [Native.snd_serve h]
    exact (n.run_effect vs h host).kept hk
  · rwa [Native.serve, dif_neg h]

theorem Event.serve_kept (e : Event ρ) {host : Host} (hk : host.files.Kept) :
    (e.serve host).2.files.Kept := by
  unfold Event.serve
  split
  · split <;> exact hk
  · exact Native.serve_kept _ _ hk
  · exact hk
  · exact hk

theorem Event.after_kept (es : List (Event ρ)) {host : Host} (hk : host.files.Kept) :
    (Event.after es host).files.Kept := by
  induction es generalizing host with
  | nil => exact hk
  | cons e es ih => exact ih (e.serve_kept hk)

/-- The stream is open for reading, behind all that its file holds. The file is kept. -/
structure Host.Ends (host : Host) (id : HandleId) (h : Handle) (held : Bytes) : Prop extends
    Host.Reads host id h held [] where
  kept : h.file < host.files.contents.size

namespace Host.Ends

variable {host : Host} {id : HandleId} {h : Handle} {held : Bytes}

/-- What is written to a stream behind all that its file holds is added to it. -/
theorem write (he : host.Ends id h held) (text : String) : ∃ host' h',
    Native.Action.fileWrite (.file id : Value ρ κ) text host = .ok .nil host' ∧
      host'.Ends id h' (held ++ Utf8.encode text) := by
  have held_eq : host.files.content h.file = held := by simpa using he.holds
  refine ⟨{ host with files := host.files.write id h (Utf8.encode text) },
    { h with position := held.length + (Utf8.encode text).length }, ?_, ?_⟩
  · rw [Native.Action.fileWrite, bind_of_ok
      (Native.Action.openStream_run he.found he.isOpen)]
    rfl
  by_cases empty : Utf8.encode text = []
  · have fixed : host.files.write id h (Utf8.encode text) = host.files := by
      rw [FileSystem.write, if_pos (by simp [empty])]
    have same : { h with position := held.length + (Utf8.encode text).length } = h := by
      rw [empty, List.length_nil, Nat.add_zero, ← he.position]
    rw [fixed, same, empty, List.append_nil]
    exact he
  · have written : host.files.write id h (Utf8.encode text) =
        (host.files.setContent h.file (held ++ Utf8.encode text)).modifyHandle id
          ({ · with position := held.length + (Utf8.encode text).length }) := by
      have nonempty : (Utf8.encode text).isEmpty = false := by simpa using empty
      rw [FileSystem.write, if_neg (by simp [nonempty])]
      simp only [he.reads, held_eq, he.position, ite_self, overwrite_end]
    rw [written]
    refine ⟨⟨?_, he.isOpen, he.reads, ?_, by simp⟩, ?_⟩
    · simp [handle?_modifyHandle, he.found]
    · simp [content_setContent, he.kept]
    · have size : (host.files.setContent h.file (held ++ Utf8.encode text)).contents.size =
          host.files.contents.size := size_setContent _ _
      simpa [FileSystem.modifyHandle] using size ▸ he.kept

theorem serve_write (he : host.Ends id h held) (v : Value ρ EnvId) : ∃ host' h',
    (Event.native .fileWrite [.file id, v]).serve host = (some (.ok .nil), host') ∧
      host'.Ends id h' (held ++ Utf8.encode v.display) := by
  obtain ⟨host', h', run, ends⟩ := he.write (ρ := ρ) (κ := EnvId) v.display
  have served : Native.fileWrite.serve [.file id, v] host = (.ok .nil, host') :=
    Native.serve_ok rfl run
  exact ⟨host', h', by rw [Event.serve, served], ends⟩

theorem serve_writeLine (he : host.Ends id h held) (v : Value ρ EnvId) : ∃ host' h',
    (Event.native .fileWriteLine [.file id, v]).serve host = (some (.ok .nil), host') ∧
      host'.Ends id h' (held ++ Utf8.encode (v.display ++ "\r\n")) := by
  obtain ⟨host', h', run, ends⟩ := he.write (ρ := ρ) (κ := EnvId) (v.display ++ "\r\n")
  have served : Native.fileWriteLine.serve [.file id, v] host = (.ok .nil, host') :=
    Native.serve_ok rfl run
  exact ⟨host', h', by rw [Event.serve, served], ends⟩

/-- What is written piece by piece stands in the file one piece after another. -/
theorem serveAll {α : Type} {event : α → Event ρ} {bytes : α → Bytes}
    (step : ∀ a {host h held}, Host.Ends host id h held → ∃ host' h',
      (event a).serve host = (some (.ok .nil), host') ∧ host'.Ends id h' (held ++ bytes a))
    (as : List α) (he : host.Ends id h held) : ∃ host' h',
      Event.serveAll (as.map event) host = (as.map fun _ => .ok .nil, host') ∧
        host'.Ends id h' (held ++ as.flatMap bytes) := by
  induction as generalizing host h held with
  | nil => exact ⟨host, h, rfl, by simpa using he⟩
  | cons a as ih =>
    obtain ⟨host₁, h₁, served, ends₁⟩ := step a he
    obtain ⟨host₂, h₂, all, ends₂⟩ := ih ends₁
    refine ⟨host₂, h₂, ?_, by simpa using ends₂⟩
    rw [List.map_cons, Event.serveAll_cons, served, all]
    rfl

/-- Back at the start the stream reads all of it. -/
theorem serve_seekStart (he : host.Ends id h held) : ∃ host',
    (Event.native .seekStart [.file id] : Event ρ).serve host = (some (.ok .nil), host') ∧
      host'.Reads id { h with position := 0 } [] held := by
  have run : Native.Action.seekStart (.file id : Value ρ EnvId) host =
      .ok .nil { host with files := host.files.seek id 0 } := by
    rw [Native.Action.seekStart, bind_of_ok (Native.Action.openStream_run he.found he.isOpen)]
    rfl
  have served : Native.seekStart.serve [.file id] host = _ := Native.serve_ok rfl run
  refine ⟨_, by rw [Event.serve, served], ?_, he.isOpen, he.reads, ?_, rfl⟩
  · simp [FileSystem.seek, handle?_modifyHandle, he.found]
  · simpa [FileSystem.seek] using he.holds

end Host.Ends

/-! Opening a file that is emptied. -/

section Opening

open Native.Action

variable {host : Host} {path : String} {mode : Float} {access : Access}

theorem Native.Action.append_of_truncate (ha : access? mode = some access)
    (truncates : access.truncate = true) : access.append = false := by
  unfold access? at ha
  repeat' split at ha
  all_goals cases ha
  all_goals first | rfl | cases truncates

theorem Native.of_fileOpen (ha : Action.access? mode = some access) {v : Value ρ EnvId}
    {host' : Host} (h : Native.fileOpen.serve [.string path, .number mode] host = (.ok v, host')) :
    ∃ id fs, host.files.openHandle path access = .ok (id, fs) ∧ v = .file id ∧
      host' = { host with files := fs } := by
  obtain ⟨_, run⟩ := of_serve_ok h
  change Action.fileOpen (.string path) (.number mode) host = _ at run
  obtain ⟨_, _, ⟨⟩, run⟩ := bind_ok run
  obtain ⟨_, _, ⟨⟩, run⟩ := bind_ok run
  simp only [ha] at run
  obtain ⟨_, host₁, known, run⟩ := bind_ok run
  obtain ⟨same, -⟩ := (known ▸ know_checks path : Checks host (fun _ => True) (.ok _ host₁)).passed
  obtain ⟨_, _, ⟨⟩, run⟩ := bind_ok (same ▸ run)
  obtain ⟨⟨id, fs⟩, host₂, opened, run⟩ := bind_ok run
  obtain ⟨same, opened⟩ := (opened ▸ allowed_checks _ : Checks host _ (.ok (id, fs) host₂)).passed
  rw [same] at run
  cases run
  exact ⟨id, fs, opened, rfl, rfl⟩

theorem Native.serve_fileOpen (ha : access? mode = some access) (known : host.knows path = true)
    {id : HandleId} {fs : FileSystem} (opened : host.files.openHandle path access = .ok (id, fs)) :
    Native.fileOpen.serve [.string path, .number mode] host =
      ((.ok (.file id) : Response ρ), { host with files := fs }) := by
  have known : know path host = .ok () host := by
    change (if !host.knows path then throw (.awaited (.path path)) else pure () : Action Unit) host = _
    rw [known]
    rfl
  have found : files host = .ok host.files host := rfl
  have named : string "first argument" (.string path : Value ρ EnvId) = pure path := rfl
  have numbered : number "second argument" (.number mode : Value ρ EnvId) = pure mode := rfl
  apply serve_ok rfl
  change Action.fileOpen (.string path) (.number mode) host = _
  rw [Action.fileOpen, named, pure_bind, numbered, pure_bind]
  simp only [ha]
  rw [bind_of_ok known, bind_of_ok found, opened]
  rfl

/-- A file that is emptied when it is opened is there to be written and read. -/
theorem FileSystem.Kept.opened (hk : host.files.Kept) (ha : Native.Action.access? mode = some access)
    (truncates : access.truncate = true) {id : HandleId} {fs : FileSystem}
    (opened : host.files.openHandle path access = .ok (id, fs)) :
    ∃ h, Host.Ends { host with files := fs } id h [] := by
  have append := Native.Action.append_of_truncate ha truncates
  obtain ⟨file, fs₁, ho, rfl, rfl⟩ := of_openHandle opened
  obtain ⟨kept, inside⟩ := hk.openFile ho
  have empty : fs₁.content file = [] := by
    rcases of_openFile ho with ⟨p, made⟩ | ⟨p, found, rfl⟩
    · have empty : (host.files.create p).2.content (host.files.create p).1 = [] := content_create p
      rwa [made] at empty
    · rw [if_pos truncates, content_emptied]
  refine ⟨{ file, appends := access.append }, ⟨?_, rfl, append, empty, rfl⟩, inside⟩
  simp [handle?]

end Opening

/-! A file that is made. -/

/-- Surroundings with one file, `t`, which holds nothing and is open. -/
def Host.scratch : Host where
  files :=
    { nodes := [(["home"], .directory), (["home", "t"], .file 0)]
      contents := #[[]]
      handles := #[{ file := 0 }] }

theorem FileSystem.locate_name : (ofEntries []).locate "t" = .ok ⟨["home"], some "t", false⟩ := by
  have names : "t".splitOn "/" = ["t"] := by
    rw [String.splitOn, if_neg (by decide), String.splitOnAux, if_neg (by decide),
      if_neg (by decide), String.splitOnAux, if_pos (by decide)]
    decide
  simp only [locate, names]
  decide

theorem Native.serve_fileOpen_scratch : Native.fileOpen.serve [.string "t", .number 2] {} =
    ((.ok (.file 0) : Response ρ), Host.scratch) := by
  have mode : Action.access? 2 = some { create := true, truncate := true } := by decide +kernel
  apply serve_fileOpen mode rfl
  change (ofEntries []).openHandle "t" { create := true, truncate := true } =
    .ok (0, Host.scratch.files)
  rw [openHandle, openFile, locate_name]
  rfl

end Lox
