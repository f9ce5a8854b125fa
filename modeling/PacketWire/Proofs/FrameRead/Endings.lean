import Mathlib.Control.Monad.Basic
import PacketWire.Proofs.Codec.Refusal
import PacketWire.Proofs.Endpoint.Noted
import PacketWire.Proofs.Readers

/-!
# What a reader tells of the end

A read ends with the news of its source just where an answer of the source is an ending, and that is
the last answer it asked for (`FrameRead.tells_endings`). `Ending.verdict` is the news: whether the
stream was over between two frames or inside one, or how the source failed. A source that fails with
the very failure that stands for an end of stream counts as one that ended.
-/

namespace PacketWire

open VarInt

/-! ## Verdicts -/

/-- What an ending behind the bytes `got` of a frame is to its reader. -/
def Ending.verdict (got : Bytes) : Ending → WireError
  | .closed => if got = [] then .connectionClosed else .unexpectedEndOfStream
  | .failed e =>
    if e.kind = .unexpectedEof then
      if got = [] then .connectionClosed else .unexpectedEndOfStream
    else .io e

/-- What an ending behind the bytes `got` of a number is to its reader. -/
def Ending.numberVerdict (got : Bytes) (x : Ending) : Except WireError (Option Int32) :=
  if x.verdict got = .connectionClosed then .ok none else .error (x.verdict got)

theorem Ending.verdict_eq (got : Bytes) (x : Ending) :
    x.verdict got =
      if x.cause.kind = .unexpectedEof then
        if got = [] then .connectionClosed else .unexpectedEndOfStream
      else .io x.cause := by
  cases x <;> rfl

variable {σ : Type} [Source σ]

namespace VarInt.NumberRead

/-- What a poll of a number comes to after the reads `asks`. -/
inductive Told (asks : List Ask) :
    Progress NumberRead (Except WireError (Option Int32)) → Prop where
  | waiting {n : NumberRead} {got : Bytes} :
      Uncut asks got → n.Begun got → n.groups < maxLength32 → Told asks (.waiting n)
  | found {v : Int32} {got : Bytes} :
      Uncut asks got → Numeral32 got v → Told asks (.done (.ok (some v)))
  | refused {got : Bytes} : Uncut asks got → Told asks (.done (.error .malformedVarInt))
  | cut {got : Bytes} {x : Ending} :
      Cut asks got x → scan32 got = .needMore → Told asks (.done (x.numberVerdict got))

theorem failed_cause {n : NumberRead} {got : Bytes} (hn : n.Begun got) (x : Ending) :
    n.failed x.cause = x.numberVerdict got := by
  have hnil : n.groups = 0 ↔ got = [] := by rw [hn.groups, List.length_eq_zero_iff]
  simp only [failed, Ending.numberVerdict, Ending.verdict_eq, hnil]
  by_cases hkind : x.cause.kind = .unexpectedEof
  · by_cases hgot : got = [] <;> simp [hkind, hgot]
  · simp [hkind]

theorem Told.cut_or_uncut {asks : List Ask}
    {p : Progress NumberRead (Except WireError (Option Int32))} (h : Told asks p) :
    (∃ got, Uncut asks got ∧ ∀ result, p = .done result →
        (∃ v, result = .ok (some v)) ∨ result = .error .malformedVarInt) ∨
      ∃ got x, Cut asks got x ∧ scan32 got = .needMore ∧ p = .done (x.numberVerdict got) := by
  cases h with
  | waiting huncut hm hlt => exact .inl ⟨_, huncut, by simp⟩
  | found huncut hv => exact .inl ⟨_, huncut, by simp⟩
  | refused huncut => exact .inl ⟨_, huncut, by simp⟩
  | cut hcut hscan => exact .inr ⟨_, _, hcut, hscan, rfl⟩

theorem told_poll {n : NumberRead} {s : Noted σ} {got : Bytes} (h : Uncut s.asks got)
    (hn : n.Begun got) : Told (n.poll s).2.asks (n.poll s).1 := by
  fun_induction NumberRead.poll n s generalizing got with
  | case1 n s hfull => exact .refused h
  | case2 n s hlt s' hs =>
    have hbyte := told_readByte h
    rw [hs] at hbyte
    exact .waiting hbyte hn (by omega)
  | case3 n s hlt e s' hs =>
    have hbyte := told_readByte h
    rw [hs] at hbyte
    obtain ⟨x, hcut, rfl⟩ := hbyte
    rw [failed_cause hn x]
    exact .cut hcut (hn.scan_eq_needMore (by omega))
  | case4 n s hlt b s' hs hb =>
    have hbyte := told_readByte h
    rw [hs] at hbyte
    exact .found hbyte (hn.numeral (by omega) hb)
  | case5 n s hlt b s' hs hb ih =>
    have hbyte := told_readByte h
    rw [hs] at hbyte
    exact ih hbyte (hn.add (by omega) (by omega))

end VarInt.NumberRead

/-- Polled from its start, a number comes to what its source answers. -/
theorem VarInt.NumberRead.told_drive (s : σ) (n : Nat) :
    let (p, s') := drive NumberRead.poll n {} ({ inner := s } : Noted σ)
    Told s'.asks p := by
  refine drive_induction (I := fun a : _ × Noted σ => Told a.2.asks a.1) ?_ n
    (.waiting .nil .start (by decide))
  intro m s h
  cases h with
  | waiting huncut hm _ => exact told_poll huncut hm

/-! ## Frames -/

namespace FrameRead

/-- What a poll of a frame comes to after the reads `asks`. -/
inductive Told (c : Codec) (asks : List Ask) :
    Progress FrameRead (Except WireError Packet) → Prop where
  | waiting {f : FrameRead} {got : Bytes} :
      Uncut asks got → Holds c f got → Told c asks (.waiting f)
  | packet {p : Packet} {got : Bytes} : Uncut asks got → Told c asks (.done (.ok p))
  | refused {e : WireError} {got : Bytes} :
      Uncut asks got → e.refuses → Told c asks (.done (.error e))
  | cut {got : Bytes} {x : Ending} :
      Cut asks got x → Frame.take c.maxFrame got = .ok none →
      Told c asks (.done (.error (x.verdict got)))

variable {c : Codec} {s : Noted σ} {r : Reserves} {got : Bytes}

theorem Told.cut_or_uncut {asks : List Ask} {p : Progress FrameRead (Except WireError Packet)}
    (h : Told c asks p) :
    (∃ got, Uncut asks got ∧ ∀ e, p = .done (.error e) → e.refuses) ∨
      ∃ got x, Cut asks got x ∧ Frame.take c.maxFrame got = .ok none ∧
        p = .done (.error (x.verdict got)) := by
  cases h with
  | waiting huncut hf => exact .inl ⟨_, huncut, by simp⟩
  | packet huncut => exact .inl ⟨_, huncut, by simp⟩
  | refused huncut he => exact .inl ⟨_, huncut, by simpa using he⟩
  | cut hcut htake => exact .inr ⟨_, _, hcut, htake, rfl⟩

/-- Inside a body, which is behind the bytes of its length, no end is clean. -/
theorem bodyError_cause (hgot : got ≠ []) (x : Ending) : bodyError x.cause = x.verdict got := by
  rw [Ending.verdict_eq, if_neg hgot]
  rfl

theorem told_pollBody {v : Int32} {buffer : Buffer} {head : Bytes} (hv : Numeral32 head v)
    (hl : Frame.checkLength c.maxFrame v = .ok buffer.length) (hgot : got.length ≤ buffer.length)
    (h : Uncut s.asks (head ++ got)) :
    Told c (pollBody c buffer got s r).2.1.asks (pollBody c buffer got s r).1 := by
  have hbytes := told_readExact h hgot
  unfold pollBody
  split <;> rename_i hread <;> rw [hread] at hbytes
  · exact .waiting hbytes.1 (.body hv hl hbytes.2)
  · obtain ⟨more, x, hcut, hmore, rfl⟩ := hbytes
    have hne : head ++ more ≠ [] := by
      have := hv.length_pos
      simp [List.ne_nil_of_length_pos this]
    rw [bodyError_cause hne x]
    exact .cut hcut (Holds.body hv hl hmore).take_eq_none
  · split
    · exact .packet hbytes.1
    · rename_i hd
      exact .refused hbytes.1 (Codec.refuses_of_decodePooled (congrArg Prod.fst hd))

theorem told_pollSized {v : Int32} (hv : Numeral32 got v) (h : Uncut s.asks got) :
    Told c (pollSized c v s r).2.1.asks (pollSized c v s r).1 := by
  unfold pollSized
  split
  · rename_i hl
    exact .refused h (Frame.refuses_of_checkLength hl)
  · rename_i n hl
    split
    · rename_i ha
      exact .refused h (Reserves.refuses_of_acquire ha)
    · rename_i buffer r' ha
      have hn : buffer.length = n := Reserves.length_of_acquire ha
      exact told_pollBody hv (hn ▸ hl) (Nat.zero_le _) (by rwa [List.append_nil])

theorem told_poll {f : FrameRead} (hf : Holds c f got) (h : Uncut s.asks got) :
    Told c (poll c f s r).2.1.asks (poll c f s r).1 := by
  cases hf with
  | body hv hl hgot => exact told_pollBody hv hl (Nat.le_of_lt hgot) h
  | @length n _ hlt hn =>
    have htold := NumberRead.told_poll h hn
    simp only [poll]
    generalize n.poll s = answer at htold ⊢
    obtain ⟨p, s'⟩ := answer
    cases htold with
    | waiting huncut hn' hlt' => exact .waiting huncut (.length hlt' hn')
    | found huncut hv => exact told_pollSized hv huncut
    | refused huncut => exact .refused huncut rfl
    | @cut got x hcut hscan =>
      have htake : Frame.take c.maxFrame got = .ok none := by simp only [Frame.take, hscan]
      unfold Ending.numberVerdict
      by_cases hclosed : x.verdict got = .connectionClosed
      · rw [if_pos hclosed]
        exact hclosed ▸ Told.cut hcut htake
      · rw [if_neg hclosed]
        exact .cut hcut htake

/-- Polled from its start, a read comes to what its source answers. -/
theorem told_drive (c : Codec) (s : σ) (r : Reserves) (n : Nat) :
    let (p, s', _) := drive (fun f (s, r) => poll c f s r) n .start (({ inner := s } : Noted σ), r)
    Told c s'.asks p := by
  refine drive_induction (I := fun a : _ × Noted σ × Reserves => Told c a.2.1.asks a.1) ?_ n
    (.waiting .nil (.start c))
  rintro f ⟨s, r⟩ h
  cases h with
  | waiting huncut hf => exact told_poll hf huncut

end FrameRead

theorem VarInt.NumberRead.poll_inner (n : NumberRead) (s : Noted σ) :
    n.poll s.inner = Prod.map id Noted.inner (n.poll s) := by
  fun_induction NumberRead.poll n s with
  | case1 n s hfull => exact poll_of_full hfull
  | case2 n s hlt s' hs =>
    exact poll_of_pause (by omega) (by rw [readByte_inner, hs])
  | case3 n s hlt e s' hs =>
    exact poll_of_error (by omega) (by rw [readByte_inner, hs])
  | case4 n s hlt b s' hs hb =>
    exact poll_of_last (by omega) (by rw [readByte_inner, hs]) hb
  | case5 n s hlt b s' hs hb ih =>
    have hinner : readByte s.inner = (.ready (.ok b), s'.inner) := by rw [readByte_inner, hs]
    rw [poll_of_more (by omega) hinner (by omega), ih]

theorem VarInt.NumberRead.drive_inner (s : Noted σ) (n : Nat) :
    drive NumberRead.poll n {} s.inner =
      Prod.map id Noted.inner (drive NumberRead.poll n {} s) :=
  drive_map poll_inner n {} s

namespace FrameRead

variable (c : Codec)

theorem pollBody_inner (buffer : Buffer) (got : Bytes) (s : Noted σ) (r : Reserves) :
    pollBody c buffer got s.inner r =
      Prod.map id (Prod.map Noted.inner id) (pollBody c buffer got s r) := by
  simp only [pollBody, readExact_inner]
  rcases readExact buffer.length got s with ⟨_ | _ | bytes, s'⟩
  · rfl
  · rfl
  · simp only
    rcases c.decodePooled (buffer.overwrite 0 bytes) r with ⟨_ | _, r'⟩ <;> rfl

theorem pollSized_inner (v : Int32) (s : Noted σ) (r : Reserves) :
    pollSized c v s.inner r = Prod.map id (Prod.map Noted.inner id) (pollSized c v s r) := by
  unfold pollSized
  split
  · rfl
  · split
    · rfl
    · exact pollBody_inner c _ _ s _

theorem poll_inner (f : FrameRead) (s : Noted σ) (r : Reserves) :
    poll c f s.inner r = Prod.map id (Prod.map Noted.inner id) (poll c f s r) := by
  cases f with
  | body buffer got => exact pollBody_inner c buffer got s r
  | length n =>
    simp only [poll, NumberRead.poll_inner]
    rcases n.poll s with ⟨_ | _ | _ | v, s'⟩
    · rfl
    · rfl
    · rfl
    · exact pollSized_inner c v s' r

theorem drive_inner (s : Noted σ) (r : Reserves) (n : Nat) :
    drive (fun f (s, r) => poll c f s r) n .start (s.inner, r) =
      Prod.map id (Prod.map Noted.inner id)
        (drive (fun f (s, r) => poll c f s r) n .start (s, r)) :=
  drive_map (g := Prod.map Noted.inner id) (fun f w => poll_inner c f w.1 w.2) n .start (s, r)

/-! ## Readers of packets and of numbers -/

/-- Readers of packets and of numbers tell what their source answers: a verdict of their own while
no answer was an ending, and else the verdict on that ending behind the bytes that were there. -/
theorem tells_endings (c : Codec) (s : σ) (r : Reserves) (n : Nat) :
    let (p, s₁, r₁) := drive (fun f (s, r) => poll c f s r) n .start (({ inner := s } : Noted σ), r)
    let (q, s₂) := drive NumberRead.poll n {} ({ inner := s } : Noted σ)
    (drive (fun f (s, r) => poll c f s r) n .start (s, r) = (p, s₁.inner, r₁) ∧
      ((∃ got, Uncut s₁.asks got ∧ ∀ e, p = .done (.error e) → e.refuses) ∨
        ∃ got x, Cut s₁.asks got x ∧ Frame.take c.maxFrame got = .ok none ∧
          p = .done (.error (x.verdict got)))) ∧
    (drive NumberRead.poll n {} s = (q, s₂.inner) ∧
      ((∃ got, Uncut s₂.asks got ∧ ∀ result, q = .done result →
          (∃ v, result = .ok (some v)) ∨ result = .error .malformedVarInt) ∨
        ∃ got x, Cut s₂.asks got x ∧ scan32 got = .needMore ∧
          q = .done (x.numberVerdict got))) :=
  ⟨⟨drive_inner c { inner := s } r n, (told_drive c s r n).cut_or_uncut⟩,
    NumberRead.drive_inner { inner := s } n, (NumberRead.told_drive s n).cut_or_uncut⟩

/-- A source that pauses, is disturbed and breaks inside a body. -/
theorem tells_endings_broken :
    let cause : IoError := { kind := .brokenPipe, text := "gone" }
    let s : Script :=
      { reads := [.data [3, 5], .pending, .fail (.ofKind .interrupted), .fail cause, .data [7]] }
    ∃ asks got x, Cut asks got x ∧ Frame.take ({} : Codec).maxFrame got = .ok none ∧
      (drive (fun f (s, r) => poll {} f s r) 3 .start (s, {})).1 = .done (.error (.io cause)) ∧
      .io cause = x.verdict got := by
  intro cause s
  have hdone : (drive (fun f (s, r) => poll {} f s r) 3 .start
      (({ inner := s } : Noted Script), {})).1 = .done (.error (.io cause)) := by decide +kernel
  have htold := tells_endings {} s {} 3
  generalize drive (fun f (s, r) => poll {} f s r) 3 .start
    (({ inner := s } : Noted Script), {}) = a at hdone htold
  obtain ⟨p, s', r'⟩ := a
  obtain rfl : p = .done (.error (.io cause)) := hdone
  obtain ⟨hinner, ⟨got, -, hrefuses⟩ | ⟨got, x, hcut, htake, hverdict⟩⟩ := htold.1
  · cases hrefuses _ rfl
  · exact ⟨s'.asks, got, x, hcut, htake, congrArg Prod.fst hinner, by simpa using hverdict⟩

/-- A source that fails as if it had ended, between two frames and inside one. -/
theorem failure_taken_for_end :
    let broken : ReadEvent := .fail { kind := .unexpectedEof, text := "boom" }
    (poll {} .start ({ reads := [broken] } : Script) {}).1 =
        .done (.error .connectionClosed) ∧
      (poll {} .start ({ reads := [.data [3, 5], broken] } : Script) {}).1 =
        .done (.error .unexpectedEndOfStream) ∧
      (NumberRead.poll {} ({ reads := [broken] } : Script)).1 = .done (.ok none) := by
  decide +kernel

end FrameRead

end PacketWire
