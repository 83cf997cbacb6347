import Lox.Host.FileSystem
import Mathlib.Data.List.Basic

/-!
What is stored. How files and streams are found again after one of them has changed, and the ways in
which opening a file changes them.
-/

namespace Lox

open Text FileSystem

namespace FileSystem

variable (fs : FileSystem) (id : HandleId)

theorem handle?_modifyHandle (f : Handle → Handle) (other : HandleId) :
    (fs.modifyHandle id f).handle? other =
      if id = other then (fs.handle? other).map f else fs.handle? other := by
  simp only [handle?, modifyHandle, Array.getElem?_modify]

@[simp] theorem content_modifyHandle (f : Handle → Handle) (file : FileId) :
    (fs.modifyHandle id f).content file = fs.content file := rfl

theorem modifyHandle_modifyHandle (f g : Handle → Handle) :
    (fs.modifyHandle id f).modifyHandle id g = fs.modifyHandle id fun h => g (f h) := by
  have handles : (fs.handles.modify id f).modify id g = fs.handles.modify id fun h => g (f h) := by
    apply Array.ext_getElem?
    intro i
    by_cases hi : id = i <;> simp [Array.getElem?_modify, hi, Function.comp_def]
  simp only [modifyHandle, handles]

theorem modifyHandle_comm {id other : HandleId} (h : id ≠ other) (f g : Handle → Handle) :
    (fs.modifyHandle id f).modifyHandle other g = (fs.modifyHandle other g).modifyHandle id f := by
  have handles : (fs.handles.modify id f).modify other g = (fs.handles.modify other g).modify id f := by
    apply Array.ext_getElem?
    intro i
    by_cases hi : id = i <;> by_cases hj : other = i <;> simp [Array.getElem?_modify, hi, hj]
    exact absurd (hi.trans hj.symm) h
  simp only [modifyHandle, handles]

theorem modifyHandle_of_fixed {h : Handle} (hh : fs.handle? id = some h) {f : Handle → Handle}
    (fixed : f h = h) : fs.modifyHandle id f = fs := by
  have handles : fs.handles.modify id f = fs.handles := by
    apply Array.ext_getElem?
    intro i
    have hh : fs.handles[id]? = some h := hh
    by_cases hi : id = i
    · subst hi
      simp [Array.getElem?_modify, hh, fixed]
    · simp [Array.getElem?_modify, hi]
  simp only [modifyHandle, handles]

@[simp] theorem seek_seek (p q : Nat) : (fs.seek id p).seek id q = fs.seek id q :=
  fs.modifyHandle_modifyHandle id _ _

theorem seek_of_position {h : Handle} (hh : fs.handle? id = some h) : fs.seek id h.position = fs :=
  fs.modifyHandle_of_fixed id hh rfl

variable {fs} {fs' : FileSystem}

theorem mem_of_node? {p : Path} {id : FileId} (h : fs.node? p = some (.file id)) :
    (p, Node.file id) ∈ fs.nodes := by
  unfold node? at h
  split at h
  · cases h
  · generalize fs.nodes = nodes at h
    induction nodes with
    | nil => cases h
    | cons node nodes ih =>
      obtain ⟨q, node⟩ := node
      rw [List.lookup_cons] at h
      split at h
      · next eq =>
        cases h
        rw [beq_iff_eq.mp eq]
        exact List.mem_cons_self
      · exact List.mem_cons_of_mem _ (ih h)

@[simp] theorem size_setContent (id : FileId) (bytes : Bytes) :
    (fs.setContent id bytes).contents.size = fs.contents.size := by
  simp [setContent]

@[simp] theorem handle?_setContent (id : FileId) (bytes : Bytes) (other : HandleId) :
    (fs.setContent id bytes).handle? other = fs.handle? other := rfl

theorem content_setContent (id : FileId) (bytes : Bytes) (other : FileId) :
    (fs.setContent id bytes).content other =
      if id = other ∧ id < fs.contents.size then bytes else fs.content other := by
  simp only [content, setContent, Array.getD_eq_getD_getElem?, Array.getElem?_setIfInBounds]
  by_cases eq : id = other
  · subst eq
    by_cases lt : id < fs.contents.size <;> simp [lt]
  · simp [eq]

theorem content_emptied (id : FileId) : (fs.setContent id []).content id = [] := by
  rw [content_setContent]
  split
  · rfl
  · next out =>
    have out : fs.contents.size ≤ id := by simpa using out
    rw [content, Array.getD_eq_getD_getElem?, Array.getElem?_eq_none out]
    rfl

theorem content_create (p : Path) : (fs.create p).2.content (fs.create p).1 = [] := by
  simp [create, content]

/-- The ways to open a file: it is made, or it is there. -/
theorem of_openFile {path : String} {access : Access} {id : FileId}
    (h : fs.openFile path access = .ok (id, fs')) :
    (∃ p, fs.create p = (id, fs')) ∨
      ∃ p, fs.node? p = some (.file id) ∧
        fs' = if access.truncate then fs.setContent id [] else fs := by
  unfold openFile at h
  cases hl : fs.locate path with
  | error fault =>
    rw [hl] at h
    cases h
  | ok place =>
    rw [hl] at h
    obtain ⟨directory, _ | name, slash⟩ := place
    · cases h
    · simp only [bind, Except.bind] at h
      split at h
      · cases h
      split at h
      · cases h
      split at h
      · split at h
        · injection h with h
          exact .inl ⟨_, h⟩
        · cases h
      · cases h
      · next found =>
        split at h
        · cases h
        split at h
        · cases h
        · cases h
          exact .inr ⟨_, found, rfl⟩

theorem of_openHandle {path : String} {access : Access} {id : HandleId}
    (h : fs.openHandle path access = .ok (id, fs')) : ∃ file fs₁,
      fs.openFile path access = .ok (file, fs₁) ∧ id = fs₁.handles.size ∧
        fs' = { fs₁ with handles := fs₁.handles.push { file, appends := access.append } } := by
  unfold openHandle at h
  cases ho : fs.openFile path access with
  | error fault =>
    rw [ho] at h
    cases h
  | ok r =>
    rw [ho] at h
    cases h
    exact ⟨r.1, r.2, rfl, rfl, rfl⟩

theorem of_writeAll {path : String} {bytes : Bytes} (h : fs.writeAll path bytes = .ok fs') :
    ∃ file fs₁, fs.openFile path { create := true, truncate := true } = .ok (file, fs₁) ∧
      fs' = fs₁.setContent file bytes := by
  unfold writeAll at h
  cases ho : fs.openFile path { create := true, truncate := true } with
  | error fault =>
    rw [ho] at h
    cases h
  | ok r =>
    rw [ho] at h
    cases h
    exact ⟨r.1, r.2, rfl, rfl⟩

/-- Opening a file as such opens no stream. -/
theorem handles_openFile {path : String} {access : Access} {id : FileId}
    (h : fs.openFile path access = .ok (id, fs')) : fs'.handles = fs.handles := by
  rcases of_openFile h with ⟨p, made⟩ | ⟨p, found, rfl⟩
  · cases made
    rfl
  · split <;> rfl

/-! What is stored without regard to a stream that is closed meanwhile. -/

section Closed

variable {id : HandleId}

theorem walk_close (p : Path) (names : List String) :
    (fs.close id).walk p names = fs.walk p names := by
  induction names generalizing p with
  | nil => rfl
  | cons name names ih =>
    have step : (fs.close id).step p name = fs.step p name := rfl
    simp only [walk, step, ih]

theorem locate_close (path : String) : (fs.close id).locate path = fs.locate path := by
  simp only [locate, walk_close]
  rfl

theorem find_close (path : String) : (fs.close id).find path = fs.find path := by
  simp only [find, locate_close]
  rfl

theorem isFile_close (path : String) : (fs.close id).isFile path = fs.isFile path := by
  rw [isFile, find_close, isFile]

theorem readAll_close (path : String) : (fs.close id).readAll path = fs.readAll path := by
  rw [readAll, find_close]
  rfl

theorem openFile_close (path : String) (access : Access) :
    (fs.close id).openFile path access =
      (fs.openFile path access).map fun (file, fs) => (file, fs.close id) := by
  simp only [openFile, locate_close]
  cases fs.locate path with
  | error fault => rfl
  | ok place =>
    obtain ⟨directory, _ | name, slash⟩ := place
    · rfl
    · have node : (fs.close id).node? (directory ++ [name]) = fs.node? (directory ++ [name]) := rfl
      simp only [bind, Except.bind, node]
      split
      · rfl
      split
      · rfl
      split
      · split <;> rfl
      · rfl
      · split
        · rfl
        split
        · rfl
        · split <;> rfl

theorem writeAll_close (path : String) (bytes : Bytes) :
    (fs.close id).writeAll path bytes = (fs.writeAll path bytes).map (·.close id) := by
  simp only [writeAll, openFile_close]
  cases fs.openFile path { create := true, truncate := true } <;> rfl

/-- A stream that is opened gets the same identity, if the one that is closed is there before. -/
theorem openHandle_close {h : Handle} (found : fs.handle? id = some h) (path : String)
    (access : Access) : (fs.close id).openHandle path access =
      (fs.openHandle path access).map fun (new, fs) => (new, fs.close id) := by
  simp only [openHandle, openFile_close]
  cases ho : fs.openFile path access with
  | error fault => rfl
  | ok r =>
    obtain ⟨file, fs'⟩ := r
    have there : id < fs'.handles.size := by
      rw [handles_openFile ho]
      exact (Array.getElem?_eq_some_iff.mp found).1
    have handles (new : Handle) : (fs'.handles.modify id ({ · with closed := true })).push new =
        (fs'.handles.push new).modify id ({ · with closed := true }) := by
      apply Array.ext_getElem?
      intro i
      by_cases hi : i = fs'.handles.size
      · simp only [hi, Array.getElem?_modify, Array.getElem?_push, Array.size_modify, if_true,
          if_neg (Nat.ne_of_lt there)]
      · simp only [hi, Array.getElem?_modify, Array.getElem?_push, Array.size_modify, if_false]
    simp only [bind, Except.bind, pure, Except.pure, Except.map, close, modifyHandle, handles,
      Array.size_modify]

theorem write_close {other : HandleId} (ho : id ≠ other) (h : Handle) (bytes : Bytes) :
    (fs.close id).write other h bytes = (fs.write other h bytes).close id := by
  unfold write
  split
  · rfl
  · extract_lets old position _ old' position' written
    exact written.modifyHandle_comm ho _ ({ · with position := position + bytes.length })

end Closed

end FileSystem

end Lox
