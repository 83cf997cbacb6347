import Lox.Proofs.Files.Kept

/-!
Characters from files. The first byte of a character tells how many bytes it has, so a stream that stands
in front of a character reads just that, and then stands in front of the next one.
-/

namespace Lox

open Text FileSystem

variable {ρ : Type}

namespace Native.Action

theorem width_encodes {v : Nat} {b : UInt8} {ds : Bytes} (h : Utf8.Encodes v (b :: ds)) :
    width b = (b :: ds).length := by
  have high (k : UInt8) (hk : k.toNat < 8) : (b >>> k).toNat = b.toNat / 2 ^ k.toNat := by
    rw [UInt8.toNat_shiftRight, Nat.mod_eq_of_lt hk, Nat.shiftRight_eq_div_pow]
  have five : (b >>> 5).toNat = b.toNat / 32 := high 5 (by decide)
  have four : (b >>> 4).toNat = b.toNat / 16 := high 4 (by decide)
  simp only [width, UInt8.lt_iff_toNat_lt, beq_iff_eq, ← UInt8.toNat_inj, five, four,
    UInt8.reduceToNat]
  cases h with
  | one hb high => rw [if_pos (by omega)]; rfl
  | two hb hd low high => rw [if_neg (by omega), if_pos (by omega)]; rfl
  | three hb hd he low high => rw [if_neg (by omega), if_neg (by omega), if_pos (by omega)]; rfl
  | four hb hd he hf low high =>
    rw [if_neg (by omega), if_neg (by omega), if_neg (by omega)]
    rfl

end Native.Action

/-- What reading a character answers: the character, or `nil` behind the last one. -/
def Value.ofChar? {κ : Type} : Option Char → Value ρ κ
  | some c => .string (String.singleton c)
  | none => .nil

namespace Host.Reads

variable {host : Host} {id : HandleId} {h : Handle} {front rest : Bytes}

theorem serve_character {c : Char} (hr : host.Reads id h front (String.utf8EncodeChar c ++ rest)) :
    (Event.native .fileRead [.file id] : Event ρ).serve host = (some (.ok (.ofChar? (some c))),
      { host with files := host.files.seek id (front ++ String.utf8EncodeChar c).length }) := by
  obtain ⟨b, ds, hb, -⟩ := Utf8.head_encodeChar c rest
  have width : Native.Action.width b = (String.utf8EncodeChar c).length := by
    have encoded := Utf8.encodes c
    rw [hb] at encoded ⊢
    exact Native.Action.width_encodes encoded
  have ahead : host.files.ahead h = b :: (ds ++ rest) := by rw [hr.ahead, hb, List.cons_append]
  have taken : (b :: (ds ++ rest)).take (String.utf8EncodeChar c).length =
      String.utf8EncodeChar c := by
    rw [hb, ← List.cons_append, List.take_left]
  have text : Utf8.decode (String.utf8EncodeChar c) = .ok (String.singleton c) :=
    Utf8.decode_eq_ok_iff.mpr (Utf8.encode_singleton c)
  have found : Native.Action.files host = .ok host.files host := rfl
  have run : Native.Action.fileRead (.file id : Value ρ EnvId) host =
      .ok (.ofChar? (some c))
        { host with files := host.files.seek id (front ++ String.utf8EncodeChar c).length } := by
    rw [Native.Action.fileRead, bind_of_ok hr.readable]
    dsimp only
    rw [bind_of_ok found, ahead]
    simp only [width, taken, Nat.lt_irrefl, if_false, text, hr.position, List.length_append]
    rfl
  have served : Native.fileRead.serve [.file id] host = _ := Native.serve_ok rfl run
  rw [Event.serve, served]

theorem serve_fileRead_end (hr : host.Reads id h front []) :
    (Event.native .fileRead [.file id] : Event ρ).serve host =
      (some (.ok (.ofChar? none)), host) := by
  have found : Native.Action.files host = .ok host.files host := rfl
  have run : Native.Action.fileRead (.file id : Value ρ EnvId) host = .ok (.ofChar? none) host := by
    rw [Native.Action.fileRead, bind_of_ok hr.readable]
    dsimp only
    rw [bind_of_ok found, hr.ahead]
    rfl
  have served : Native.fileRead.serve [.file id] host = _ := Native.serve_ok rfl run
  rw [Event.serve, served]

/-- One character after another, and then nothing more. -/
theorem serveAll_fileRead {cs : List Char}
    (hr : host.Reads id h front (cs.flatMap String.utf8EncodeChar)) (n : Nat) :
    Event.serveAll (List.replicate n (.native .fileRead [.file id] : Event ρ)) host =
      ((List.range n).map fun i => .ok (.ofChar? cs[i]?),
        { host with
          files := host.files.seek id (front ++ (cs.take n).flatMap String.utf8EncodeChar).length }) := by
  induction n generalizing cs host h front with
  | zero =>
    have stays : host.files.seek id front.length = host.files := by
      rw [← hr.position]
      exact host.files.seek_of_position id hr.found
    simp [Event.serveAll, stays]
  | succ n ih =>
    rw [List.replicate_succ, Event.serveAll_cons, List.range_succ_eq_map]
    cases cs with
    | nil =>
      rw [hr.serve_fileRead_end, ih hr]
      simp [Function.comp_def, List.map_const']
    | cons c cs =>
      rw [List.flatMap_cons] at hr
      rw [hr.serve_character, ih (hr.moved rfl)]
      simp [Function.comp_def]

end Host.Reads

namespace Event

/-- Reading a text character by character. Every character is answered once, in its turn, and the stream
moves on by just the bytes of the character; behind the last one there is `nil`. So what is written to a
file that was emptied is read back as it was. -/
theorem characters_read :
    (∀ {host : Host} {id : HandleId} {h : Handle} {bytes : Bytes} {s : String},
      host.Reads id h [] bytes → Utf8.decode bytes = .ok s → ∀ n,
        serveAll (List.replicate n (.native .fileRead [.file id] : Event ρ)) host =
          ((List.range n).map fun i => .ok (.ofChar? s.toList[i]?),
            { host with
              files := host.files.seek id (Utf8.encode (.ofList (s.toList.take n))).length })) ∧
    ∀ {host opened : Host} {path : String} {mode : Float} {access : Access} {id : HandleId},
      host.files.Kept → Native.Action.access? mode = some access → access.truncate = true →
      Native.fileOpen.serve [.string path, .number mode] host =
        ((.ok (.file id) : Response ρ), opened) → ∀ s n,
        (serveAll (.native .fileWrite [.file id, .string s] :: .native .seekStart [.file id] ::
            List.replicate n (.native .fileRead [.file id] : Event ρ)) opened).1 =
          .ok .nil :: .ok .nil :: (List.range n).map fun i => .ok (.ofChar? s.toList[i]?) := by
  have reading {host : Host} {id : HandleId} {h : Handle} {bytes : Bytes} {s : String}
      (hr : host.Reads id h [] bytes) (text : Utf8.decode bytes = .ok s) (n : Nat) :
      serveAll (List.replicate n (.native .fileRead [.file id] : Event ρ)) host =
        ((List.range n).map fun i => .ok (.ofChar? s.toList[i]?),
          { host with
            files := host.files.seek id (Utf8.encode (.ofList (s.toList.take n))).length }) := by
    have bytes_eq := Utf8.decode_eq_ok_iff.mp text
    rw [Utf8.encode_eq] at bytes_eq
    rw [← bytes_eq] at hr
    rw [Utf8.encode_ofList]
    exact hr.serveAll_fileRead n
  refine ⟨reading, ?_⟩
  intro host opened path mode access id hk ha truncates ho s n
  obtain ⟨id, fs, hfs, ⟨⟩, rfl⟩ := Native.of_fileOpen ha ho
  obtain ⟨h, ends⟩ := hk.opened ha truncates hfs
  obtain ⟨host₁, h₁, written, ends₁⟩ := ends.serve_write (.string s : Value ρ EnvId)
  obtain ⟨host₂, sought, reads⟩ := ends₁.serve_seekStart (ρ := ρ)
  rw [serveAll_cons, written, serveAll_cons, sought, reading reads (Utf8.decode_encode s)]
  rfl

/-- A letter of two bytes and a digit. -/
theorem characters_read_pair :
    Host.Reads { Host.scratch with files := Host.scratch.files.setContent 0 (Utf8.encode "é2") } 0
        { file := 0 } [] (Utf8.encode "é2") ∧
      Utf8.decode (Utf8.encode "é2") = .ok "é2" ∧
      (serveAll [.native .fileRead [.file 0], .native .fileRead [.file 0], .native .fileRead [.file 0]]
        { Host.scratch with files := Host.scratch.files.setContent 0 (Utf8.encode "é2") }).1 =
        [.ok (.string "é"), .ok (.string "2"), (.ok .nil : Response Unit)] ∧
      (FileSystem.ofEntries []).Kept ∧
      Native.fileOpen.serve [.string "t", .number 2] {} =
        ((.ok (.file 0) : Response Unit), Host.scratch) ∧
      (serveAll [.native .fileWrite [.file 0, .string "é2"], .native .seekStart [.file 0],
          .native .fileRead [.file 0], .native .fileRead [.file 0], .native .fileRead [.file 0]]
        Host.scratch).1 =
        [.ok .nil, .ok .nil, .ok (.string "é"), .ok (.string "2"), (.ok .nil : Response Unit)] := by
  have reads : Host.Reads
      { Host.scratch with files := Host.scratch.files.setContent 0 (Utf8.encode "é2") } 0
      { file := 0 } [] (Utf8.encode "é2") := ⟨rfl, rfl, rfl, rfl, rfl⟩
  have text := Utf8.decode_encode "é2"
  have kept := kept_ofEntries []
  have mode : Native.Action.access? 2 = some { create := true, truncate := true } := by
    decide +kernel
  have opened := Native.serve_fileOpen_scratch (ρ := Unit)
  refine ⟨reads, text, ?_, kept, opened, ?_⟩
  · exact congrArg Prod.fst (characters_read.1 reads text 3)
  · exact characters_read.2 kept mode rfl opened "é2" 3

end Event

end Lox
