import Mathlib.Data.List.Basic
import Mathlib.Tactic.Common

/-! Draining a streamed body into memory up to a cap (`tier.rs`), and a PUT's body before it is
forwarded (`cache/proxy.rs`). -/

namespace S3Cache.Tier

variable {ε : Type}

inductive StdError (ε : Type)
  | inner (e : ε)
  | io (e : StdError ε)
  deriving DecidableEq

abbrev StreamingBlob (ε : Type) := List (Except (StdError ε) (List UInt8))

def ioError (e : StdError ε) : StdError ε := .io e

def blobOf (bytes : List UInt8) : StreamingBlob ε := [.ok bytes]

inductive BufferedBody (ε : Type)
  | whole (bytes : List UInt8)
  | streamed (blob : StreamingBlob ε)
  deriving DecidableEq

def splice (buf : List UInt8) (item : Except (StdError ε) (List UInt8)) (rest : StreamingBlob ε) :
    StreamingBlob ε :=
  .ok buf :: item.mapError ioError :: rest.map (Except.mapError ioError)

def drain (cap : Nat) (buf : List UInt8) : StreamingBlob ε → BufferedBody ε × Nat
  | [] => (.whole buf, buf.length)
  | .ok b :: rest =>
    if buf.length + b.length ≤ cap then drain cap (buf ++ b) rest
    else (.streamed (splice buf (.ok b) rest), buf.length)
  | .error e :: rest => (.streamed (splice buf (.error e) rest), buf.length)

def bufferOrForward (blob : StreamingBlob ε) (cap : Nat) : BufferedBody ε := (drain cap [] blob).1

def heldBytes (blob : StreamingBlob ε) (cap : Nat) : Nat := (drain cap [] blob).2

/-! ### The bytes and errors of a stream -/

/-- The bytes and the errors in their order: an error stands after the bytes that came before it. -/
def events (blob : StreamingBlob ε) : List (StdError ε ⊕ UInt8) :=
  blob.flatMap fun
    | .ok b => b.map .inr
    | .error e => [.inl e]

def wrap : StdError ε ⊕ UInt8 → StdError ε ⊕ UInt8 := Sum.map ioError id

def chunks (blob : StreamingBlob ε) : List UInt8 :=
  blob.flatMap fun
    | .ok b => b
    | .error _ => []

def Faultless (blob : StreamingBlob ε) : Prop := ∀ item ∈ blob, ∃ b, item = .ok b

@[simp] theorem events_ok (b : List UInt8) (rest : StreamingBlob ε) :
    events (.ok b :: rest) = b.map .inr ++ events rest := rfl

@[simp] theorem events_error (e : StdError ε) (rest : StreamingBlob ε) :
    events (.error e :: rest) = .inl e :: events rest := rfl

@[simp] theorem chunks_ok (b : List UInt8) (rest : StreamingBlob ε) :
    chunks (.ok b :: rest) = b ++ chunks rest := rfl

theorem map_wrap_inr (b : List UInt8) :
    (b.map Sum.inr).map wrap = b.map (Sum.inr : UInt8 → StdError ε ⊕ UInt8) := by
  rw [List.map_map]
  rfl

theorem events_mapError (blob : StreamingBlob ε) :
    events (blob.map (Except.mapError ioError)) = (events blob).map wrap := by
  induction blob with
  | nil => rfl
  | cons item rest ih =>
    cases item with
    | ok b =>
      rw [List.map_cons, events_ok, List.map_append, map_wrap_inr, ← ih]
      rfl
    | error e =>
      rw [List.map_cons, events_error, List.map_cons, ← ih]
      rfl

theorem events_splice (buf : List UInt8) (item : Except (StdError ε) (List UInt8))
    (rest : StreamingBlob ε) :
    events (splice buf item rest) = (buf.map Sum.inr ++ events (item :: rest)).map wrap := by
  rw [List.map_append, map_wrap_inr, ← events_mapError]
  rfl

@[simp] theorem faultless_ok {b : List UInt8} {rest : StreamingBlob ε} :
    Faultless (.ok b :: rest) ↔ Faultless rest := by
  simp [Faultless]

theorem Faultless.events_eq {blob : StreamingBlob ε} (h : Faultless blob) :
    events blob = (chunks blob).map .inr := by
  induction blob with
  | nil => rfl
  | cons item rest ih =>
    cases item with
    | ok b => rw [events_ok, chunks_ok, List.map_append, ih (faultless_ok.mp h)]
    | error e => exact absurd (h _ List.mem_cons_self) nofun

theorem not_faultless_error {e : StdError ε} {rest : StreamingBlob ε} :
    ¬ Faultless (.error e :: rest) := by
  simp [Faultless]

/-! ### Draining -/

section Drain

variable {cap : Nat} {buf : List UInt8} {blob : StreamingBlob ε}

theorem drain_whole {body : List UInt8} (h : (drain cap buf blob).1 = .whole body) :
    body = buf ++ chunks blob := by
  induction blob generalizing buf with
  | nil =>
    cases h
    exact (List.append_nil _).symm
  | cons item rest ih =>
    cases item with
    | ok b =>
      rw [drain] at h
      split at h
      · rw [ih h, chunks_ok, List.append_assoc]
      · cases h
    | error e => cases h

theorem drain_whole_iff (hbuf : buf.length ≤ cap) :
    (∃ body, (drain cap buf blob).1 = .whole body) ↔
      Faultless blob ∧ buf.length + (chunks blob).length ≤ cap := by
  induction blob generalizing buf with
  | nil =>
    refine ⟨fun _ => ⟨nofun, hbuf⟩, fun _ => ⟨buf, rfl⟩⟩
  | cons item rest ih =>
    cases item with
    | ok b =>
      rw [drain, chunks_ok, List.length_append, faultless_ok]
      split
      · rename_i hfits
        rw [← List.length_append] at hfits
        rw [ih hfits, List.length_append, Nat.add_assoc]
      · rename_i hover
        refine ⟨nofun, fun h => absurd h.2 ?_⟩
        omega
    | error e => exact ⟨nofun, fun h => absurd h.1 not_faultless_error⟩

theorem drain_streamed {out : StreamingBlob ε} (h : (drain cap buf blob).1 = .streamed out) :
    events out = (buf.map Sum.inr ++ events blob).map wrap := by
  induction blob generalizing buf with
  | nil => cases h
  | cons item rest ih =>
    cases item with
    | ok b =>
      rw [drain] at h
      split at h
      · rw [ih h, events_ok, ← List.append_assoc, ← List.map_append]
      · cases h
        exact events_splice buf (.ok b) rest
    | error e =>
      cases h
      exact events_splice buf (.error e) rest

theorem drain_held (hbuf : buf.length ≤ cap) : (drain cap buf blob).2 ≤ cap := by
  induction blob generalizing buf with
  | nil => exact hbuf
  | cons item rest ih =>
    cases item with
    | ok b =>
      rw [drain]
      split
      · rename_i hfits
        exact ih (List.length_append ▸ hfits)
      · exact hbuf
    | error e => exact hbuf

end Drain

/-- Buffering a body never costs or reorders a byte. -/
theorem buffering_keeps_every_byte (blob : StreamingBlob ε) (cap : Nat) :
    ((∃ body, bufferOrForward blob cap = .whole body) ↔
      Faultless blob ∧ (chunks blob).length ≤ cap) ∧
    (∀ body, bufferOrForward blob cap = .whole body → body = chunks blob) ∧
    (∀ out, bufferOrForward blob cap = .streamed out → events out = (events blob).map wrap) ∧
    heldBytes blob cap ≤ cap := by
  refine ⟨?_, ?_, ?_, drain_held (Nat.zero_le cap)⟩
  · rw [bufferOrForward, drain_whole_iff (Nat.zero_le cap), List.length_nil, Nat.zero_add]
  · intro body h
    exact drain_whole h
  · intro out h
    exact drain_streamed h

/-- An empty chunk, a fault and a chunk after it: the splice keeps the fault after three bytes. -/
theorem buffering_keeps_every_byte_sample :
    let blob : StreamingBlob Unit :=
      [.ok [1, 2, 3], .ok [], .error (.inner ()), .ok [4], .error (.inner ())]
    bufferOrForward blob 5 = .streamed (splice [1, 2, 3] (.error (.inner ()))
      [.ok [4], .error (.inner ())]) ∧
    events (splice [1, 2, 3] (.error (.inner ())) [.ok [4], .error (.inner ())]) =
      (events blob).map wrap ∧
    bufferOrForward (blob.take 2) 3 = .whole [1, 2, 3] := by
  intro blob
  obtain ⟨-, -, hstreamed, -⟩ := buffering_keeps_every_byte blob 5
  exact ⟨by decide, hstreamed _ (by decide), by decide⟩

/-! ### The body of a PUT -/

structure PutObjectInput (ε : Type) where
  contentType : Option String
  contentLength : Option Int
  originOnly : Bool
  body : Option (StreamingBlob ε)

def bufferedPutBody (maxObjBytes : Nat) (input : PutObjectInput ε) :
    Option (List UInt8) × PutObjectInput ε :=
  if input.contentType.isNone ∨ input.originOnly then (none, input)
  -- a declared length over the cap is refused before a byte is read
  else if input.contentLength.any fun len => len < 0 ∨ maxObjBytes < len.toNat then (none, input)
  else
    match input.body with
    | none => (some [], input)
    | some body =>
      match bufferOrForward body maxObjBytes with
      | .whole bytes => (some bytes, { input with body := some (blobOf bytes) })
      | .streamed rest => (none, { input with body := some rest })

theorem bufferedPutBody_forwards {maxObjBytes : Nat} {input forwarded : PutObjectInput ε}
    {held : Option (List UInt8)} (h : bufferedPutBody maxObjBytes input = (held, forwarded)) :
    forwarded = { input with body := forwarded.body } ∧
    (forwarded.body.map events = input.body.map events ∨
      held = none ∧ forwarded.body.map events = input.body.map fun b => (events b).map wrap) ∧
    ∀ bytes ∈ held, (input.body.map events).getD [] = bytes.map .inr := by
  rw [bufferedPutBody] at h
  split at h
  · cases h
    exact ⟨rfl, .inl rfl, fun _ hbytes => absurd hbytes (Option.not_mem_none _)⟩
  split at h
  · cases h
    exact ⟨rfl, .inl rfl, fun _ hbytes => absurd hbytes (Option.not_mem_none _)⟩
  split at h
  · rename_i hbody
    cases h
    refine ⟨rfl, .inl rfl, ?_⟩
    rintro bytes ⟨⟩
    rw [hbody]
    rfl
  · rename_i body hbody
    split at h
    · rename_i bytes hwhole
      cases h
      have hfaultless : Faultless body := ((drain_whole_iff (Nat.zero_le _)).mp ⟨bytes, hwhole⟩).1
      have hevents : events body = bytes.map .inr := by
        rw [hfaultless.events_eq, ← List.nil_append (chunks body), ← drain_whole hwhole]
      rw [hbody, Option.map_some, Option.map_some, hevents]
      refine ⟨rfl, .inl (congrArg some (List.append_nil _)), ?_⟩
      rintro _ ⟨⟩
      rfl
    · rename_i rest hstreamed
      cases h
      rw [hbody, Option.map_some, Option.map_some, drain_streamed hstreamed]
      exact ⟨rfl, .inr ⟨rfl, rfl⟩, fun _ hbytes => absurd hbytes (Option.not_mem_none _)⟩

end S3Cache.Tier
