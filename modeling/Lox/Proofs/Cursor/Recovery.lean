import Lox.Proofs.Cursor.Agreement

/-!
Behind a faulty declaration both readers go on at the same token. The cursor skips at least one token on
the way there, unless it has come to the end, which lies further on, too. So each round of the loops over
declarations takes a token, and the next one begins behind it.
-/

namespace Lox

namespace Cursor

variable {T : Tape}

section Synchronize

variable {q : State} {s : Parser.State} {t u : Token} {ts : List Token} {k : RefId}
  {fs : List Parser.Fault} {steps : Nat}

theorem synchronizeWithin_nil (st : Stands T q ⟨[], k, fs⟩) (steps : Nat) :
    synchronizeWithin (steps + 1) q = .ok () q := by
  simp only [synchronizeWithin, Bind.bind, EStateM.bind, isAtEnd_run st, List.isEmpty_nil, if_true]
  rfl

theorem synchronizeWithin_cons (st : Stands T q ⟨t :: u :: ts, k, fs⟩) (steps : Nat) :
    synchronizeWithin (steps + 1) q.moved =
      if t.kind == .semicolon || u.kind.startsStatement then .ok () q.moved
      else synchronizeWithin steps q.moved.moved := by
  simp only [synchronizeWithin, Bind.bind, EStateM.bind, isAtEnd_run st.moved, List.isEmpty_cons,
    Bool.false_eq_true, if_false, previous_moved st, peek_run st.moved, List.head?_cons,
    Option.getD_some]
  by_cases stops : (t.kind == .semicolon || u.kind.startsStatement) = true
  · rw [if_pos stops, if_pos stops]
    rfl
  · rw [if_neg stops, if_neg stops]
    simp only [EStateM.bind, advance_run st.moved]

theorem synchronizeWithin_run (st : Stands T q ⟨t :: ts, k, fs⟩) (h : ts.length < steps) :
    ∃ q', synchronizeWithin steps q.moved = .ok () q' ∧ Stands T q' ⟨Parser.resume (t :: ts), k, fs⟩ ∧
      q'.rounds = q.rounds := by
  obtain ⟨steps, rfl⟩ := Nat.exists_eq_succ_of_ne_zero (Nat.ne_zero_of_lt h)
  induction ts generalizing q t steps with
  | nil =>
    have last : Parser.resume [t] = [] := by simp [Parser.resume]
    exact ⟨q.moved, synchronizeWithin_nil st.moved steps, last.symm ▸ st.moved, rfl⟩
  | cons u us ih =>
    rw [synchronizeWithin_cons st]
    by_cases stops : (t.kind == .semicolon || u.kind.startsStatement) = true
    · have resume : Parser.resume (t :: u :: us) = u :: us := if_pos stops
      rw [if_pos stops, resume]
      exact ⟨q.moved, rfl, st.moved, rfl⟩
    · have resume : Parser.resume (t :: u :: us) = Parser.resume (u :: us) := if_neg stops
      obtain ⟨steps, rfl⟩ := Nat.exists_eq_succ_of_ne_zero (Nat.ne_zero_of_lt (Nat.lt_of_succ_lt_succ h))
      rw [if_neg stops, resume]
      exact ih st.moved steps (Nat.lt_of_succ_lt_succ h)

/-- Where the cursor goes on is where the other reader does. -/
theorem synchronize_run (st : Stands T q s) : ∃ q', synchronize q = .ok () q' ∧
    Stands T q' ⟨Parser.resume s.rest, s.nextId, s.faults⟩ ∧ q'.rounds = q.rounds := by
  have length : q.tokens.length = T.body.length + T.beyond.length + 1 := by
    rw [st.tokens, Tape.tokens, List.length_append, List.length_cons, Nat.add_assoc]
  obtain ⟨_ | ⟨t, ts⟩, k, fs⟩ := s
  · obtain ⟨t, stays⟩ := advance_end st
    refine ⟨q, ?_, st, rfl⟩
    simp only [synchronize, Bind.bind, EStateM.bind, stays]
    change synchronizeWithin q.tokens.length q = _
    rw [length]
    exact synchronizeWithin_nil st _
  · have enough : ts.length < q.tokens.length := by
      have := st.length
      simp only [List.length_cons] at this
      omega
    simp only [synchronize, Bind.bind, EStateM.bind, advance_run st]
    exact synchronizeWithin_run st enough

end Synchronize

/-- The cursor is further on behind a faulty declaration, too. -/
theorem Agrees.recover {α : Type} {c : Cursor α} {p : Parser α} {q : State} {s : Parser.State}
    (h : Agrees T 1 q (c q) (p s)) (st : Stands T q s) (hs : s.rest ≠ []) :
    Agrees T 1 q (recover c q) (Parser.recover p s) := by
  simp only [Parser.recover_run, Cursor.recover, tryCatch, tryCatchThe, MonadExceptOf.tryCatch,
    EStateM.tryCatch, Functor.map, EStateM.map]
  generalize c q = r at h
  generalize p s = r' at h
  cases h with
  | answer stands taken proceeds => exact .answer stands taken proceeds
  | fault stands taken proceeds =>
    rename_i f q₁ s₁
    have noted : Stands T { q₁ with errors := q₁.errors ++ [f.toError T.mark.line] }
        ⟨s₁.rest, s₁.nextId, s₁.faults ++ [f]⟩ :=
      ⟨stands.tokens, stands.position, stands.rest, stands.nextId, by simp [stands.errors]⟩
    obtain ⟨q₂, run, stands₂, rounds⟩ := synchronize_run noted
    have within := st.length
    have within₁ := stands.length
    have within₂ : (Parser.resume s₁.rest).length + q₂.position = T.body.length := stands₂.length
    have further : q₁.position ≤ q₂.position := by
      have := (Parser.resume_suffix s₁.rest).length_le
      omega
    have beyond : q.position + 1 ≤ q₂.position := by
      by_cases ended : s₁.rest = []
      · have := List.length_pos_of_ne_nil hs
        have ended : (Parser.resume s₁.rest).length = 0 := by rw [ended]; rfl
        omega
      · have := Parser.length_resume_lt ended
        omega
    have note_run : note (f.toError T.mark.line) q₁ = .ok () _ := rfl
    have handled : (do note (f.toError T.mark.line); synchronize; return none : Cursor (Option α)) q₁ =
        .ok none q₂ := by
      simp only [Bind.bind, EStateM.bind, note_run, run]
      rfl
    have next : Agrees T 1 q (.ok (none : Option α) q₂) (.ok none _) :=
      .answer stands₂ beyond (proceeds.further rounds further)
    rw [← handled] at next
    exact next

theorem Proceeds.round {q q₁ : State} (h : Proceeds (q.position + 1) q q₁)
    (further : q.position < q₁.position) :
    Proceeds q.position q { q₁ with rounds := q₁.rounds ++ [(q.position, q₁.position)] } := by
  obtain ⟨rounds, put, nodup, within⟩ := h
  refine ⟨rounds ++ [(q.position, q₁.position)], ?_, ?_, ?_⟩
  · simp only [put, List.append_assoc]
  · rw [List.map_append, List.nodup_append]
    refine ⟨nodup, List.nodup_singleton _, fun a ha b hb => ?_⟩
    obtain ⟨r, hr, rfl⟩ := List.mem_map.mp ha
    obtain rfl := List.mem_singleton.mp hb
    exact Nat.ne_of_gt (within r hr).1
  · intro r hr
    obtain hr | hr := List.mem_append.mp hr
    · exact ⟨Nat.le_of_succ_le (within r hr).1, (within r hr).2⟩
    · obtain rfl := List.mem_singleton.mp hr
      exact ⟨Nat.le_refl _, further, Nat.le_refl _⟩

/-- A round takes a token, and it is on record when reading goes on. -/
theorem Agrees.round {α β : Type} {c : Cursor α} {p : Parser α} {l : α → Cursor β} {m : α → Parser β}
    {q : State} {s : Parser.State} (h : Agrees T 1 q (c q) (p s))
    (hl : ∀ a q' s', Stands T q' s' → q.position < q'.position → Agrees T 0 q' (l a q') (m a s')) :
    Agrees T 0 q ((do let a ← c; finishRound q.position; l a) q) ((p >>= m) s) := by
  simp only [Bind.bind, EStateM.bind]
  generalize c q = r at h
  generalize p s = r' at h
  cases h with
  | answer stands taken proceeds =>
    rename_i a q₁ s₁
    have stands : Stands T { q₁ with rounds := q₁.rounds ++ [(q.position, q₁.position)] } s₁ :=
      ⟨stands.tokens, stands.position, stands.rest, stands.nextId, stands.errors⟩
    exact (hl a _ s₁ stands taken).further (Nat.le_of_lt taken) (proceeds.round taken)
  | fault stands taken proceeds =>
    exact .fault stands taken (proceeds.weaken (Nat.le_succ q.position))

end Cursor

end Lox
