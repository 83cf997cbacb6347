import Lox.Proofs.Files.Kept

/-!
Lines from files. A stream reads the pieces of its file, which is cut behind each newline, one after
another. What a piece holds apart from line ends is answered if it is text.
-/

namespace Lox

open Text FileSystem

variable {ρ : Type}

/-- Bytes and their pieces, cut behind each newline. -/
inductive Cut : Bytes → List Bytes → Prop
  | nil : Cut [] []
  | last {piece : Bytes} (filled : piece ≠ []) (inside : 10 ∉ piece) : Cut piece [piece]
  | line {piece rest : Bytes} {pieces : List Bytes} (inside : 10 ∉ piece) (cut : Cut rest pieces) :
      Cut (piece ++ 10 :: rest) ((piece ++ [10]) :: pieces)

namespace Cut

variable {bytes : Bytes} {pieces : List Bytes}

theorem flatten (h : Cut bytes pieces) : pieces.flatten = bytes := by
  induction h with
  | nil => rfl
  | last => simp
  | line inside cut ih => simp [ih]

theorem exists_pieces (bytes : Bytes) : ∃ pieces, Cut bytes pieces := by
  induction bytes with
  | nil => exact ⟨[], .nil⟩
  | cons b bytes ih =>
    obtain ⟨pieces, cut⟩ := ih
    by_cases hb : b = 10
    · subst hb
      exact ⟨_, (cut.line List.not_mem_nil : Cut ([] ++ 10 :: bytes) _)⟩
    have front {piece : Bytes} (inside : 10 ∉ piece) : 10 ∉ b :: piece := by
      simp [inside, Ne.symm hb]
    cases cut with
    | nil => exact ⟨_, .last (List.cons_ne_nil b []) (front List.not_mem_nil)⟩
    | last filled inside => exact ⟨_, .last (List.cons_ne_nil b _) (front inside)⟩
    | line inside cut => exact ⟨_, cut.line (front inside)⟩

theorem cutLine_last {piece : Bytes} (inside : 10 ∉ piece) : Console.cutLine piece = (piece, []) := by
  induction piece with
  | nil => rfl
  | cons b piece ih =>
    obtain ⟨hb, inside⟩ := not_or.mp fun h => inside (List.mem_cons.mpr h)
    have other : (b == 10) = false := by simpa using Ne.symm hb
    simp [Console.cutLine, other, ih inside]

theorem cutLine_line {piece : Bytes} (inside : 10 ∉ piece) (rest : Bytes) :
    Console.cutLine (piece ++ 10 :: rest) = (piece ++ [10], rest) := by
  induction piece with
  | nil => rfl
  | cons b piece ih =>
    obtain ⟨hb, inside⟩ := not_or.mp fun h => inside (List.mem_cons.mpr h)
    have other : (b == 10) = false := by simpa using Ne.symm hb
    simp [Console.cutLine, other, ih inside]

/-- The first piece is the first line. -/
theorem head (h : Cut bytes pieces) : (bytes = [] ∧ pieces = []) ∨ ∃ piece rest pieces',
    piece ≠ [] ∧ Console.cutLine bytes = (piece, rest) ∧ pieces = piece :: pieces' ∧
      Cut rest pieces' := by
  cases h with
  | nil => exact .inl ⟨rfl, rfl⟩
  | last filled inside => exact .inr ⟨_, [], [], filled, cutLine_last inside, rfl, .nil⟩
  | line inside cut => exact .inr ⟨_, _, _, by simp, cutLine_line inside _, rfl, cut⟩

end Cut

/-- What is left of a piece without line ends. -/
def Text.withoutLineEnds (piece : Bytes) : Bytes := piece.filter fun b => b != 10 && b != 13

/-- The reply to reading a line: the piece without line ends, if that is text, or `nil` behind the last
piece. -/
def Response.ofPiece? : Option Bytes → Response ρ
  | none => .ok .nil
  | some piece => match Utf8.decode (withoutLineEnds piece) with
    | .ok s => .ok (.string s)
    | .error fault => .error (.native .fileReadLine (.malformed fault))

namespace Host.Reads

variable {host : Host} {id : HandleId} {h : Handle} {front rest : Bytes}

theorem serve_piece {bytes piece : Bytes} (hr : host.Reads id h front bytes) (filled : piece ≠ [])
    (cut : Console.cutLine bytes = (piece, rest)) :
    (Event.native .fileReadLine [.file id] : Event ρ).serve host = (some (.ofPiece? (some piece)),
      { host with files := host.files.seek id (front ++ piece).length }) := by
  have found : Native.Action.files host = .ok host.files host := rfl
  have run : Native.Action.fileReadLine (.file id : Value ρ EnvId) host =
      (match Utf8.decode (withoutLineEnds piece) with
        | .ok s => return .string s
        | .error fault => throw (.malformed fault) : Native.Action (Value ρ EnvId))
        { host with files := host.files.seek id (front ++ piece).length } := by
    rw [Native.Action.fileReadLine, bind_of_ok hr.readable]
    dsimp only
    rw [bind_of_ok found, hr.ahead, cut]
    obtain ⟨b, bs, rfl⟩ := List.exists_cons_of_ne_nil filled
    simp only [hr.position, List.length_append]
    rfl
  have served : Native.fileReadLine.serve [.file id] host = (Response.ofPiece? (ρ := ρ) (some piece),
      { host with files := host.files.seek id (front ++ piece).length }) := by
    rw [Response.ofPiece?]
    cases text : Utf8.decode (withoutLineEnds piece) with
    | ok s =>
      simp only [text] at run
      exact Native.serve_ok rfl run
    | error fault =>
      simp only [text] at run
      exact Native.serve_error rfl run
  rw [Event.serve, served]

theorem serve_fileReadLine_end (hr : host.Reads id h front []) :
    (Event.native .fileReadLine [.file id] : Event ρ).serve host =
      (some (.ofPiece? none), host) := by
  have found : Native.Action.files host = .ok host.files host := rfl
  have run : Native.Action.fileReadLine (.file id : Value ρ EnvId) host = .ok .nil host := by
    rw [Native.Action.fileReadLine, bind_of_ok hr.readable]
    dsimp only
    rw [bind_of_ok found, hr.ahead]
    rfl
  have served : Native.fileReadLine.serve [.file id] host = _ := Native.serve_ok rfl run
  rw [Event.serve, served, Response.ofPiece?]

/-- One piece after another, text or not, and then nothing more. -/
theorem serveAll_fileReadLine {pieces : List Bytes} (hr : host.Reads id h front rest)
    (cut : Cut rest pieces) (n : Nat) :
    Event.serveAll (List.replicate n (.native .fileReadLine [.file id] : Event ρ)) host =
      ((List.range n).map fun i => .ofPiece? pieces[i]?,
        { host with files := host.files.seek id (front ++ (pieces.take n).flatten).length }) := by
  induction n generalizing pieces host h front rest with
  | zero =>
    have stays : host.files.seek id front.length = host.files := by
      rw [← hr.position]
      exact host.files.seek_of_position id hr.found
    simp [Event.serveAll, stays]
  | succ n ih =>
    rw [List.replicate_succ, Event.serveAll_cons, List.range_succ_eq_map]
    obtain ⟨rfl, rfl⟩ | ⟨piece, rest', pieces', filled, line, rfl, cut'⟩ := cut.head
    · rw [hr.serve_fileReadLine_end, ih hr .nil]
      simp [Function.comp_def, List.map_const']
    · have joined : rest = piece ++ rest' := by
        have joined := Console.cutLine_append rest
        rw [line] at joined
        exact joined.symm
      rw [hr.serve_piece filled line, ih (hr.moved joined) cut']
      simp [Function.comp_def]

end Host.Reads

/-! Lines that are written. -/

section Written

variable {s : String}

theorem encode_line (s : String) : Utf8.encode (s ++ "\r\n") = Utf8.encode s ++ [13] ++ [10] := by
  have lineEnd : Utf8.encode "\r\n" = [13] ++ [10] := by decide
  rw [Utf8.encode_append, lineEnd, List.append_assoc]

theorem newline_not_mem_encode (h : '\n' ∉ s.toList) : 10 ∉ Utf8.encode s :=
  fun hb => h (Utf8.mem_of_mem_encode hb (by decide) rfl)

theorem return_not_mem_encode (h : '\r' ∉ s.toList) : 13 ∉ Utf8.encode s :=
  fun hb => h (Utf8.mem_of_mem_encode hb (by decide) rfl)

theorem Response.ofPiece?_line (newline : '\n' ∉ s.toList) (carriage : '\r' ∉ s.toList) :
    (Response.ofPiece? (some (Utf8.encode (s ++ "\r\n"))) : Response ρ) = .ok (.string s) := by
  have kept : (Utf8.encode s).filter (fun b => b != 10 && b != 13) = Utf8.encode s := by
    rw [List.filter_eq_self]
    intro b hb
    simp only [Bool.and_eq_true, bne_iff_ne, ne_eq]
    exact ⟨fun h => newline_not_mem_encode newline (h ▸ hb),
      fun h => return_not_mem_encode carriage (h ▸ hb)⟩
  have text : withoutLineEnds (Utf8.encode (s ++ "\r\n")) = Utf8.encode s := by
    rw [withoutLineEnds, encode_line, List.filter_append, List.filter_append, kept]
    simp
  rw [Response.ofPiece?, text, Utf8.decode_encode]

/-- Each line that is written is a piece of its own. -/
theorem Cut.written {ss : List String} (newline : ∀ s ∈ ss, '\n' ∉ s.toList) :
    Cut (ss.flatMap fun s => Utf8.encode (s ++ "\r\n")) (ss.map fun s => Utf8.encode (s ++ "\r\n")) := by
  induction ss with
  | nil => exact .nil
  | cons s ss ih =>
    have inside : 10 ∉ Utf8.encode s ++ [13] := by
      simp [newline_not_mem_encode (newline s List.mem_cons_self)]
    rw [List.flatMap_cons, List.map_cons, encode_line, List.append_assoc, List.singleton_append]
    exact .line inside (ih fun s hs => newline s (List.mem_cons_of_mem _ hs))

end Written

namespace Event

/-- Reading a file line by line. Every piece is consumed in its turn, and answered without its line
end if it is text; behind the last one there is `nil`. So lines that are written to a file that was
emptied are read back as they were. -/
theorem lines_read :
    (∀ bytes, ∃ pieces, Cut bytes pieces) ∧
    (∀ {host : Host} {id : HandleId} {h : Handle} {bytes : Bytes} {pieces : List Bytes},
      host.Reads id h [] bytes → Cut bytes pieces → ∀ n,
        serveAll (List.replicate n (.native .fileReadLine [.file id] : Event ρ)) host =
          ((List.range n).map fun i => .ofPiece? pieces[i]?,
            { host with files := host.files.seek id (pieces.take n).flatten.length })) ∧
    ∀ {host opened : Host} {path : String} {mode : Float} {access : Access} {id : HandleId},
      host.files.Kept → Native.Action.access? mode = some access → access.truncate = true →
      Native.fileOpen.serve [.string path, .number mode] host =
        ((.ok (.file id) : Response ρ), opened) →
      ∀ ss : List String, (∀ s ∈ ss, '\n' ∉ s.toList ∧ '\r' ∉ s.toList) → ∀ n,
        (serveAll (ss.map (fun s => .native .fileWriteLine [.file id, .string s]) ++
            .native .seekStart [.file id] ::
            List.replicate n (.native .fileReadLine [.file id] : Event ρ)) opened).1 =
          ss.map (fun _ => .ok .nil) ++ .ok .nil ::
            (List.range n).map fun i => .ok (ss[i]?.elim .nil .string) := by
  have reading {host : Host} {id : HandleId} {h : Handle} {bytes : Bytes} {pieces : List Bytes}
      (hr : host.Reads id h [] bytes) (cut : Cut bytes pieces) (n : Nat) :
      serveAll (List.replicate n (.native .fileReadLine [.file id] : Event ρ)) host =
        ((List.range n).map fun i => .ofPiece? pieces[i]?,
          { host with files := host.files.seek id (pieces.take n).flatten.length }) :=
    hr.serveAll_fileReadLine cut n
  refine ⟨Cut.exists_pieces, reading, ?_⟩
  intro host opened path mode access id hk ha truncates ho ss plain n
  obtain ⟨id, fs, hfs, ⟨⟩, rfl⟩ := Native.of_fileOpen ha ho
  obtain ⟨h, ends⟩ := hk.opened ha truncates hfs
  obtain ⟨host₁, h₁, written, ends₁⟩ := ends.serveAll
    (fun s _ _ _ ends => ends.serve_writeLine (.string s : Value ρ EnvId)) ss
  obtain ⟨host₂, sought, reads⟩ := ends₁.serve_seekStart (ρ := ρ)
  have cut := Cut.written fun s hs => (plain s hs).1
  have answers (i : Nat) :
      Response.ofPiece? (ρ := ρ) (ss.map fun s => Utf8.encode (s ++ "\r\n"))[i]? =
        .ok (ss[i]?.elim .nil .string) := by
    rw [List.getElem?_map]
    cases hs : ss[i]? with
    | none => rfl
    | some s =>
      obtain ⟨newline, carriage⟩ := plain s (List.mem_of_getElem? hs)
      exact Response.ofPiece?_line newline carriage
  rw [serveAll_append, written, after, written, serveAll_cons, sought, reading reads cut]
  simp only [answers]
  rfl

/-- Two lines, one of them empty. -/
theorem lines_read_pair :
    Host.Reads { Host.scratch with files := Host.scratch.files.setContent 0 [97, 10, 255] } 0
        { file := 0 } [] [97, 10, 255] ∧
      Cut [97, 10, 255] [[97, 10], [255]] ∧
      (serveAll [.native .fileReadLine [.file 0], .native .fileReadLine [.file 0],
          .native .fileReadLine [.file 0]]
        { Host.scratch with files := Host.scratch.files.setContent 0 [97, 10, 255] }).1 =
        [.ok (.string "a"), .error (.native .fileReadLine (.malformed ⟨0, some 1⟩)),
          (.ok .nil : Response Unit)] ∧
      (FileSystem.ofEntries []).Kept ∧
      Native.fileOpen.serve [.string "t", .number 2] {} =
        ((.ok (.file 0) : Response Unit), Host.scratch) ∧
      (serveAll [.native .fileWriteLine [.file 0, .string "a"],
          .native .fileWriteLine [.file 0, .string ""], .native .seekStart [.file 0],
          .native .fileReadLine [.file 0], .native .fileReadLine [.file 0],
          .native .fileReadLine [.file 0]] Host.scratch).1 =
        [.ok .nil, .ok .nil, .ok .nil, .ok (.string "a"), .ok (.string ""),
          (.ok .nil : Response Unit)] := by
  have reads : Host.Reads
      { Host.scratch with files := Host.scratch.files.setContent 0 [97, 10, 255] } 0
      { file := 0 } [] [97, 10, 255] := ⟨rfl, rfl, rfl, rfl, rfl⟩
  have cut : Cut [97, 10, 255] [[97, 10], [255]] :=
    (Cut.line (by decide) (.last (by decide) (by decide)) : Cut ([97] ++ 10 :: [255]) _)
  have kept := kept_ofEntries []
  have mode : Native.Action.access? 2 = some { create := true, truncate := true } := by
    decide +kernel
  have opened := Native.serve_fileOpen_scratch (ρ := Unit)
  refine ⟨reads, cut, ?_, kept, opened, ?_⟩
  · exact congrArg Prod.fst (lines_read.2.1 reads cut 3)
  · exact lines_read.2.2 kept mode rfl opened ["a", ""] (by decide) 3

end Event

end Lox
