import TinyLisp.Proofs.Places

/-!
# Calls on a cursor

Whatever is called on a cursor, and in whatever order, its marks, its pending text and the characters
ahead stay in agreement with the bytes of the source.

* `Cursor.perform`: one call on a cursor, with its answer and the cursor behind it.
* `Cursor.Tracks`: what the parts of a cursor are, in terms of the characters passed;
  `tracks_perform`: a call keeps it so, `tracks_performAll`: so do all of them.
* `Cursor.decodes_of_peek`: the next character is the one that the bytes ahead begin with.
* `performAll_represents`: where a cursor is after any calls on it, and what it says.
-/

namespace TinyLisp

namespace Cursor

/-! ## Calls -/

/-- What can be called on a cursor. -/
inductive Call where
  /-- Passes the next character. -/
  | scan
  /-- Looks at the next character. -/
  | peek
  /-- Makes a token of the pending text and drops the text. -/
  | emit (kind : Token.Kind)
  /-- Drops the pending text. -/
  | ignore
  /-- Returns the pending text. -/
  | text
  /-- Says where the next character is. -/
  | location
  /-- Says where the pending text starts. -/
  | startLocation

/-- What a call comes to. -/
inductive Answer where
  | scanned (result : Except ScanFault Char)
  | peeked (result : Except ScanFault Char)
  | emitted (t : Token)
  /-- The text that was dropped. -/
  | ignored (span : Text)
  | text (t : Text)
  | location (loc : Location)

/-- The text that a call has finished, as a token or as nothing. -/
def Answer.span? : Answer → Option Text
  | .emitted t => some t.text
  | .ignored span => some span
  | _ => none

/-- Performs one call. -/
def perform (c : Cursor) : Call → Answer × Cursor
  | .scan =>
    match c.scan with
    | .ok (x, c') => (.scanned (.ok x), c')
    | .error why => (.scanned (.error why), c)
  | .peek => (.peeked c.peek, c)
  | .emit kind => (.emitted (c.token kind), c.ignore)
  | .ignore => (.ignored c.text, c.ignore)
  | .text => (.text c.text, c)
  | .location => (.location c.location, c)
  | .startLocation => (.location c.startLocation, c)

/-- Performs calls in order. -/
def performAll (c : Cursor) : List Call → List Answer × Cursor
  | [] => ([], c)
  | call :: calls =>
    let (answer, c) := c.perform call
    let (answers, c) := c.performAll calls
    (answer :: answers, c)

/-- The texts that calls have finished, in order. -/
def spans (answers : List Answer) : List Text := answers.filterMap Answer.span?

/-! ## What the parts of a cursor are -/

/-- The cursor goes through the source `bytes`: it has passed the characters `done` and `pend`, of
which `pend` are the pending ones. -/
structure Tracks (c : Cursor) (file bytes : Text) (failure : Option Text) (done pend : List Char) :
    Prop where
  file : c.file = file
  failure : c.failure = failure
  source : bytes = .ofChars (done ++ pend ++ c.unread) ++ c.undecodable
  stuck : c.undecodable.decodeChar? = none
  start : c.start = markBehind done
  here : c.here = markBehind (done ++ pend)
  pending : c.pending = pend.reverse

variable {c c' : Cursor} {file bytes : Text} {failure : Option Text} {done pend : List Char}
  {x : Char}

theorem tracks_ofText (file bytes : Text) (failure : Option Text) :
    (ofText file bytes failure).Tracks file bytes failure [] [] := by
  obtain ⟨cs, bad, -, rfl, hbad⟩ := Text.ofChars_decodeOnto [] bytes
  rw [ofText_append hbad]
  exact ⟨rfl, rfl, rfl, hbad, rfl, rfl, rfl⟩

theorem Tracks.text_eq (h : c.Tracks file bytes failure done pend) : c.text = .ofChars pend := by
  rw [text, h.pending, List.reverse_reverse]

theorem Tracks.ignore (h : c.Tracks file bytes failure done pend) :
    c.ignore.Tracks file bytes failure (done ++ pend) [] := by
  refine ⟨h.file, h.failure, ?_, h.stuck, h.here, ?_, rfl⟩
  · rw [List.append_nil]
    exact h.source
  · rw [List.append_nil]
    exact h.here

theorem pass_of_scan (h : c.scan = .ok (x, c')) :
    c.peek = .ok x ∧ c' = c.pass [x] c.unread.tail := by
  unfold scan at h
  split at h
  · rename_i y hpeek
    obtain ⟨rfl, rfl⟩ := Prod.mk.inj (Except.ok.inj h)
    exact ⟨hpeek, rfl⟩
  · cases h

theorem Tracks.scan (h : c.Tracks file bytes failure done pend) (hscan : c.scan = .ok (x, c')) :
    c'.Tracks file bytes failure done (pend ++ [x]) := by
  have hunread := unread_of_scan hscan
  obtain ⟨-, rfl⟩ := pass_of_scan hscan
  refine ⟨h.file, h.failure, ?_, h.stuck, h.start, ?_, ?_⟩
  · have hchars : done ++ (pend ++ [x]) ++ c.unread.tail = done ++ pend ++ c.unread := by
      rw [hunread]
      simp
    exact h.source.trans (congrArg (fun cs => Text.ofChars cs ++ c.undecodable) hchars.symm)
  · rw [← List.append_assoc, markBehind_concat, ← h.here]
    rfl
  · rw [List.reverse_append, ← h.pending]
    rfl

/-- **A call keeps track of the source**: it passes a character, or it finishes the pending text, or
it leaves the cursor alone. -/
theorem tracks_perform (h : c.Tracks file bytes failure done pend) (call : Call) :
    ∃ done' pend', (c.perform call).2.Tracks file bytes failure done' pend' ∧
      Text.ofChars done' = .ofChars done ++ (spans [(c.perform call).1]).flatten := by
  cases call with
  | scan =>
    cases hscan : c.scan with
    | ok r =>
      simp only [perform, hscan]
      exact ⟨done, pend ++ [r.1], h.scan hscan, (List.append_nil _).symm⟩
    | error why =>
      simp only [perform, hscan]
      exact ⟨done, pend, h, (List.append_nil _).symm⟩
  | emit kind =>
    refine ⟨done ++ pend, [], h.ignore, ?_⟩
    rw [Text.ofChars_append, ← h.text_eq]
    simp [perform, spans, Answer.span?, token]
  | ignore =>
    refine ⟨done ++ pend, [], h.ignore, ?_⟩
    rw [Text.ofChars_append, ← h.text_eq]
    simp [perform, spans, Answer.span?]
  | peek => exact ⟨done, pend, h, (List.append_nil _).symm⟩
  | text => exact ⟨done, pend, h, (List.append_nil _).symm⟩
  | location => exact ⟨done, pend, h, (List.append_nil _).symm⟩
  | startLocation => exact ⟨done, pend, h, (List.append_nil _).symm⟩

theorem tracks_performAll (h : c.Tracks file bytes failure done pend) (calls : List Call) :
    ∃ done' pend', (c.performAll calls).2.Tracks file bytes failure done' pend' ∧
      Text.ofChars done' = .ofChars done ++ (spans (c.performAll calls).1).flatten := by
  induction calls generalizing c done pend with
  | nil => exact ⟨done, pend, h, (List.append_nil _).symm⟩
  | cons call calls ih =>
    obtain ⟨done₁, pend₁, h₁, hspans₁⟩ := tracks_perform h call
    obtain ⟨done₂, pend₂, h₂, hspans₂⟩ := ih h₁
    refine ⟨done₂, pend₂, h₂, ?_⟩
    have hcons : spans (c.performAll (call :: calls)).1 =
        spans [(c.perform call).1] ++ spans ((c.perform call).2.performAll calls).1 :=
      List.filterMap_append (l := [(c.perform call).1]) ..
    rw [hspans₂, hspans₁, hcons, List.flatten_append, List.append_assoc]

/-! ## The next character -/

/-- Calls other than `scan` do not touch what is ahead. -/
theorem peek_perform {call : Call} (h : call ≠ .scan) : (c.perform call).2.peek = c.peek := by
  cases call with
  | scan => exact absurd rfl h
  | _ => rfl

theorem peek_performAll {calls : List Call} (h : ∀ call ∈ calls, call ≠ .scan) :
    (c.performAll calls).2.peek = c.peek := by
  induction calls generalizing c with
  | nil => rfl
  | cons call calls ih =>
    obtain ⟨hcall, hcalls⟩ := List.forall_mem_cons.1 h
    exact (ih hcalls).trans (peek_perform hcall)

/-- **What can be seen ahead is what can be passed**, and then it is the current character. -/
theorem peek_eq_ok_iff :
    c.peek = .ok x ↔ ∃ c', c.scan = .ok (x, c') ∧ c'.current = some x := by
  constructor
  · intro h
    exact ⟨c.pass [x] c.unread.tail, by simp only [Cursor.scan, h], rfl⟩
  · rintro ⟨c', hscan, -⟩
    exact (pass_of_scan hscan).1

/-- **The next character is the one that the bytes ahead begin with**, if the source could be
read. -/
theorem Tracks.peek_eq_ok_iff (h : c.Tracks file bytes failure done pend) :
    c.peek = .ok x ↔
      failure = none ∧ ∃ rest, Text.decodeChar? (bytes.drop c.here.pos) = some (x, rest) := by
  have hpos : c.here.pos = (Text.ofChars (done ++ pend)).length := by
    rw [h.here, markBehind_eq]
  have hdrop : bytes.drop c.here.pos = Text.ofChars c.unread ++ c.undecodable := by
    rw [hpos, h.source, Text.ofChars_append (done ++ pend), List.append_assoc]
    exact List.drop_left
  rw [hdrop, ← h.failure, peek]
  cases c.failure with
  | some message => simp
  | none =>
    cases hunread : c.unread with
    | cons y ys =>
      rw [Text.ofChars_cons, List.append_assoc, Text.decodeChar?_encode]
      simp [eq_comm]
    | nil =>
      have hstuck := h.stuck
      rw [Text.ofChars_nil, List.nil_append, hstuck]
      cases c.undecodable <;> simp

/-! ## Where a cursor is -/

/-- The cursor goes through the source `bytes` and has finished the texts `spans`: its pending text is
between its two marks, these are between characters and have the line and the column of their place,
and what it has passed is what it has finished and what is pending. -/
structure Represents (c : Cursor) (file bytes : Text) (spans : List Text) : Prop where
  start_le : c.start.pos ≤ c.here.pos
  here_le : c.here.pos ≤ bytes.length
  start : ∃ front, front <+: bytes.decode.1 ∧ c.startLocation.Behind file front
  here : ∃ front, front <+: bytes.decode.1 ∧ c.location.Behind file front
  text : c.text = (bytes.take c.here.pos).drop c.start.pos
  passed : bytes.take c.here.pos = spans.flatten ++ c.text

theorem Tracks.represents (h : c.Tracks file bytes failure done pend) {spans : List Text}
    (hspans : Text.ofChars done = spans.flatten) : c.Represents file bytes spans := by
  have hdecode : bytes.decode = (done ++ pend ++ c.unread, c.undecodable) :=
    Text.decode_eq_iff.2 ⟨h.source, h.stuck⟩
  have hstart : c.start.pos = (Text.ofChars done).length := by rw [h.start, markBehind_eq]
  have hhere : c.here.pos = (Text.ofChars (done ++ pend)).length := by rw [h.here, markBehind_eq]
  have htake : bytes.take c.here.pos = Text.ofChars (done ++ pend) := by
    rw [hhere, h.source, Text.ofChars_append (done ++ pend), List.append_assoc]
    exact List.take_left
  have hlength := congrArg List.length h.source
  rw [Text.ofChars_append, List.length_append, List.length_append] at hlength
  refine ⟨?_, ?_, ⟨done, ?_, ?_⟩, ⟨done ++ pend, ?_, ?_⟩, ?_, ?_⟩
  · rw [hstart, hhere, Text.ofChars_append, List.length_append]
    omega
  · omega
  · rw [hdecode, List.append_assoc]
    exact List.prefix_append _ _
  · have hbehind := behind_locate c done
    rwa [← h.start, h.file] at hbehind
  · rw [hdecode]
    exact List.prefix_append _ _
  · have hbehind := behind_locate c (done ++ pend)
    rwa [← h.here, h.file] at hbehind
  · rw [htake, hstart, Text.ofChars_append, List.drop_left, h.text_eq]
  · rw [htake, Text.ofChars_append, hspans, h.text_eq]

end Cursor

open Cursor in
/-- **A cursor stays in agreement with its source under all calls.** Its marks are in order, within
the source, between characters, and at the right lines and columns; the texts it has finished and the
pending one make up what it has passed. The next character is the one that the bytes ahead begin with,
and it can be seen ahead if and only if the next `scan`, now or behind other calls, passes it, which
makes it the current one. A `scan` that fails leaves the cursor alone. -/
theorem performAll_represents (file bytes : Text) (failure : Option Text) (calls : List Call) :
    let answers := ((ofText file bytes failure).performAll calls).1
    let c := ((ofText file bytes failure).performAll calls).2
    c.Represents file bytes (spans answers) ∧
    (∀ x, c.peek = .ok x ↔
      failure = none ∧ ∃ rest, Text.decodeChar? (bytes.drop c.here.pos) = some (x, rest)) ∧
    (∀ between : List Call, (∀ call ∈ between, call ≠ .scan) → ∀ x, c.peek = .ok x ↔
      ∃ c', (c.performAll between).2.scan = .ok (x, c') ∧ c'.current = some x) ∧
    ∀ why, c.scan = .error why → c.perform .scan = (.scanned (.error why), c) := by
  intro answers c
  obtain ⟨done, pend, htracks, hspans⟩ :=
    tracks_performAll (tracks_ofText file bytes failure) calls
  refine ⟨htracks.represents hspans, fun x => htracks.peek_eq_ok_iff, ?_, fun why hwhy => ?_⟩
  · intro between hbetween x
    rw [← peek_performAll hbetween]
    exact peek_eq_ok_iff
  · rw [perform, hwhy]

end TinyLisp
