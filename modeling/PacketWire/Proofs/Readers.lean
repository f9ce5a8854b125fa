import PacketWire.Proofs.FrameRead
import PacketWire.Proofs.Codec.Pooled
import PacketWire.Proofs.Inbox
import PacketWire.Proofs.Endpoint.Reading
import PacketWire.Proofs.VarInt.Reading

/-!
# One packet at a time, or all of them

`FrameRead.packets` reads packet after packet until the first error, each read run to its end.
`FrameRead.Holds` says which bytes of its frame an unfinished read has taken; from there on it
comes to what decoding those bytes and all that follow at one go comes to. So a reader that pulls
its frames and a stream that cuts them out of a buffer tell the same: only that a clean end is an
error to the reader.
-/

namespace PacketWire

open VarInt

namespace FrameRead

variable {σ : Type} [Source σ]

/-! ## Reading to the first error -/

/-- Poll `j` of a reader that goes on with `f`, after `k` packets. -/
def pollIn (env : Inbox.Surroundings) (c : Codec) (k j : Nat) (f : FrameRead) (s : σ)
    (r : Reserves) : Progress FrameRead (Except WireError Packet) × σ × Reserves :=
  f.poll (c.switch (env.threshold k)) s (env.others j r)

/-- What the reads from an answer on give, if the first error comes in fewer than `n` more
polls. -/
def packetsFrom (env : Inbox.Surroundings) (c : Codec) : Nat → Nat → Nat →
    Progress FrameRead (Except WireError Packet) × σ × Reserves →
    Option (List (Except WireError Packet))
  | 0, _, _, _ => none
  | n + 1, k, j, (.waiting f, s, r) => packetsFrom env c n k (j + 1) (pollIn env c k j f s r)
  | n + 1, k, j, (.done (.ok p), s, r) =>
    (packetsFrom env c n (k + 1) (j + 1) (pollIn env c (k + 1) j .start s r)).map (.ok p :: ·)
  | _ + 1, _, _, (.done (.error e), _, _) => some [.error e]

/-- What reading one packet after the other gives, up to the first error, if that comes in at most
`n` polls. -/
def packets (env : Inbox.Surroundings) (c : Codec) (n : Nat) (s : σ) (r : Reserves) :
    Option (List (Except WireError Packet)) :=
  packetsFrom env c n 0 1 (pollIn env c 0 0 .start s r)

/-- What a row of items is to a reader: it stops at the first error, and a clean end is one. -/
def told {α : Type} : List (Except WireError α) → List (Except WireError α)
  | [] => [.error .connectionClosed]
  | .ok x :: xs => .ok x :: told xs
  | .error e :: _ => [.error e]

variable {env : Inbox.Surroundings} {c : Codec} {k j : Nat}
  {a : Progress FrameRead (Except WireError Packet) × σ × Reserves}
  {f : FrameRead} {s s' : σ} {r r' : Reserves} {ys : List (Except WireError Content)}

/-- From answer `a` on, the reads come to an error, and what they give says `ys`. -/
def Yields (env : Inbox.Surroundings) (c : Codec) (k j : Nat)
    (a : Progress FrameRead (Except WireError Packet) × σ × Reserves)
    (ys : List (Except WireError Content)) : Prop :=
  ∃ n, ∀ m, n ≤ m →
    ∃ xs, packetsFrom env c m k j a = some xs ∧ xs.map (Except.map Packet.content) = ys

theorem yields_of_waiting (h : Yields env c k (j + 1) (pollIn env c k j f s r) ys) :
    Yields env c k j (.waiting f, s, r) ys := by
  obtain ⟨n, h⟩ := h
  refine ⟨n + 1, fun m hm => ?_⟩
  obtain ⟨m, rfl⟩ : ∃ l, m = l + 1 := ⟨m - 1, by omega⟩
  exact h m (by omega)

theorem yields_of_packet {p : Packet} {x : Content} (hp : p.content = x)
    (h : Yields env c (k + 1) (j + 1) (pollIn env c (k + 1) j .start s r) ys) :
    Yields env c k j (.done (.ok p), s, r) (.ok x :: ys) := by
  obtain ⟨n, h⟩ := h
  refine ⟨n + 1, fun m hm => ?_⟩
  obtain ⟨m, rfl⟩ : ∃ l, m = l + 1 := ⟨m - 1, by omega⟩
  obtain ⟨xs, hxs, hys⟩ := h m (by omega)
  refine ⟨.ok p :: xs, ?_, ?_⟩
  · simp only [packetsFrom, hxs, Option.map_some]
  · rw [List.map_cons, hys, Except.map, hp]

theorem yields_of_failure {e : WireError} :
    Yields env c k j (.done (.error e), s, r) [.error e] := by
  refine ⟨1, fun m hm => ⟨[.error e], ?_, rfl⟩⟩
  obtain ⟨m, rfl⟩ : ∃ l, m = l + 1 := ⟨m - 1, by omega⟩
  rfl

/-! ## What an unfinished read has taken -/

/-- The read `f` has taken `p` of its frame, and it is not the whole frame. -/
inductive Holds (c : Codec) : FrameRead → Bytes → Prop where
  | length {n : NumberRead} {p : Bytes} :
      n.groups < maxLength32 → n.Begun p → Holds c (.length n) p
  | body {v : Int32} {buffer : Buffer} {head got : Bytes} :
      Numeral32 head v → Frame.checkLength c.maxFrame v = .ok buffer.length →
      got.length < buffer.length → Holds c (.body buffer got) (head ++ got)

theorem Holds.start (c : Codec) : Holds c .start [] := .length (by decide) .start

def room : FrameRead → Nat
  | .length _ => 1
  | .body buffer got => buffer.length - got.length

theorem Holds.room_pos {p : Bytes} (h : Holds c f p) : 0 < f.room := by
  cases h with
  | length => exact Nat.one_pos
  | body _ _ hg => exact Nat.sub_pos_of_lt hg

theorem Holds.take_eq_none {p : Bytes} (h : Holds c f p) : Frame.take c.maxFrame p = .ok none := by
  cases h with
  | length hn hb => simp only [Frame.take, hb.scan_eq_needMore hn]
  | @body v buffer head got hv hl hg =>
    simp only [Frame.take, scan32_of_numeral hv, hl, List.drop_left]
    rw [if_pos]
    rw [List.length_take]
    omega

theorem take_of_full {max : Nat} {n : NumberRead} {p : Bytes} (hp : n.Begun p)
    (hfull : maxLength32 ≤ n.groups) (w : Bytes) :
    Frame.take max (p ++ w) = .error .malformedVarInt := by
  have hscan := hp.scan w
  rw [NumberRead.scan_of_full hfull] at hscan
  simp only [Frame.take, hscan, Scan.behind]

/-- The read asks for no more than its frame still lacks. -/
theorem Holds.room_le {p w body rest : Bytes} (h : Holds c f p)
    (ht : Frame.take c.maxFrame (p ++ w) = .ok (some (body, rest))) : f.room ≤ w.length := by
  cases h with
  | @length n p hn hp =>
    cases w with
    | nil =>
      rw [List.append_nil, (Holds.length hn hp).take_eq_none] at ht
      cases ht
    | cons b w => exact Nat.succ_pos _
  | @body v buffer head got hv hl hg =>
    obtain ⟨hsum, hlength⟩ := Frame.take_behind_numeral hv hl (List.append_assoc .. ▸ ht)
    have hsum := congrArg List.length hsum
    simp only [List.length_append, room] at hsum ⊢
    omega

section

variable {n : NumberRead} {buffer : Buffer} {b : UInt8} {bs got p : Bytes} (c' : Codec)

theorem poll_of_pause (hf : Holds c f p) (hs : Source.read f.room s = (.pending, s'))
    (r : Reserves) : f.poll c' s r = (.waiting f, s', r) := by
  cases hf with
  | length hn _ => simp only [poll, NumberRead.poll_of_pause hn (readByte_of_pause hs)]
  | body _ _ hg => simp only [poll, pollBody, readExact_of_pause hg hs]

theorem poll_of_disturbance {e : IoError} (hf : Holds c f p)
    (hs : Source.read f.room s = (.ready (.error e), s')) (he : e.kind = .interrupted)
    (r : Reserves) : f.poll c' s r = f.poll c' s' r := by
  cases hf with
  | length hn _ => simp only [poll, NumberRead.poll_congr (readByte_of_disturbance hs he) hn]
  | body _ _ hg => simp only [poll, pollBody, readExact_of_disturbance hg hs he]

theorem poll_of_more (hn : n.groups < maxLength32)
    (hs : Source.read 1 s = (.ready (.ok (b :: bs)), s')) (hb : 128 ≤ b.toNat) (r : Reserves) :
    (length n).poll c' s r = (length (n.add b)).poll c' s' r := by
  simp only [poll, NumberRead.poll_of_more hn (readByte_of_data hs).2 hb]

theorem poll_of_last (hn : n.groups < maxLength32)
    (hs : Source.read 1 s = (.ready (.ok (b :: bs)), s')) (hb : b.toNat < 128) (r : Reserves) :
    (length n).poll c' s r = pollSized c' (Int32.ofNat (n.add b).value) s' r := by
  simp only [poll, NumberRead.poll_of_last hn (readByte_of_data hs).2 hb]

theorem poll_of_piece (hg : got.length < buffer.length)
    (hs : Source.read (buffer.length - got.length) s = (.ready (.ok (b :: bs)), s'))
    (r : Reserves) :
    (body buffer got).poll c' s r = (body buffer (got ++ b :: bs)).poll c' s' r := by
  simp only [poll, pollBody, readExact_of_data hg hs]

end

/-! ## What is to be read -/

/-- What a reader is told of `bs` and a clean end behind them, packet `k` being the first. -/
def expected (threshold : Nat → Int32) (c : Codec) (k : Nat) (bs : Bytes) (r : Reserves) :
    List (Except WireError Content) :=
  told ((c.decodeAll threshold .closed k bs r).map (Except.map Packet.content))

variable {threshold : Nat → Int32} {bs frame rest : Bytes} {e : WireError}

theorem expected_of_refusal (h : Frame.take c.maxFrame bs = .error e) :
    expected threshold c k bs r = [.error e] := by
  have hn := (Codec.next_of_refusal (c := c.switch (threshold k)) r h).1
  rw [expected, Codec.decodeAll_of_refusal hn]
  rfl

theorem expected_of_end (h : Frame.take c.maxFrame bs = .ok none) :
    expected threshold c k bs r =
      [.error (if bs.isEmpty then .connectionClosed else .unexpectedEndOfStream)] := by
  have hn := (Codec.next_of_no_take (c := c.switch (threshold k)) r h).1
  rw [expected, Codec.decodeAll_of_incomplete hn]
  cases bs <;> rfl

/-- A whole frame comes first, and then whatever follows it. -/
theorem expected_of_frame (threshold : Nat → Int32) (k : Nat)
    (h : Frame.take c.maxFrame bs = .ok (some (frame, rest))) (hr : r.Unlimited) :
    ∃ r' : Reserves, r'.Unlimited ∧ expected threshold c k bs r =
      match ((c.switch (threshold k)).decodeBody frame r).1.map Packet.content with
      | .ok x => .ok x :: expected threshold c (k + 1) rest r'
      | .error e => [.error e] := by
  refine ⟨_, Codec.next_unlimited (c.switch (threshold k)) bs hr, ?_⟩
  obtain ⟨hn, hl⟩ := Codec.next_of_take (c := c.switch (threshold k)) r h
  cases hd : ((c.switch (threshold k)).decodeBody frame r).1 with
  | error e =>
    rw [hd] at hn
    rw [expected, Codec.decodeAll_of_refusal hn]
    rfl
  | ok p =>
    rw [hd] at hn
    rw [expected, Codec.decodeAll_of_packet hn, hl]
    rfl

/-! ## Frame by frame -/

/-- A read `f` that has taken `p`, with `w` still to come, gives what is to be read. -/
def Agrees (env : Inbox.Surroundings) (c : Codec) (f : FrameRead) (s : σ) (p w : Bytes) : Prop :=
  ∀ (k j : Nat) (r r' : Reserves), r.Unlimited → r'.Unlimited →
    Yields env c k j (f.poll (c.switch (env.threshold k)) s r)
      (expected env.threshold c k (p ++ w) r')

theorem Agrees.pollIn {p w : Bytes} (h : Agrees env c f s p w) (k j : Nat) {r r' : Reserves}
    (hr : r.Unlimited) (hr' : r'.Unlimited) :
    Yields env c k (j + 1) (pollIn env c k j f s r) (expected env.threshold c k (p ++ w) r') :=
  h k (j + 1) _ r' (env.unlimited j r hr) hr'

theorem yields_of_body {v : Int32} {buffer : Buffer} {head body w : Bytes}
    (hv : Numeral32 head v) (hl : Frame.checkLength c.maxFrame v = .ok buffer.length)
    (hb : body.length = buffer.length) (hnext : Agrees env c .start s [] w)
    (hr : r.Unlimited) (hr' : r'.Unlimited) :
    Yields env c k j (pollBody (c.switch (env.threshold k)) buffer body s r)
      (expected env.threshold c k (head ++ body ++ w) r') := by
  obtain ⟨r1, hr1, he⟩ := expected_of_frame env.threshold k
    (Frame.take_of_frame hv (hb ▸ hl) w) hr'
  have hbytes : (buffer.overwrite 0 body).bytes = body :=
    Codec.overwrite_whole (Nat.le_of_eq hb.symm)
  have hc := Codec.decodePooled_content (c.switch (env.threshold k)) (buffer.overwrite 0 body)
    hr hr'
  have hr2 := Codec.decodePooled_unlimited (c.switch (env.threshold k)) (buffer.overwrite 0 body)
    hr
  rw [hbytes] at hc
  rw [he, ← hc]
  simp only [pollBody, readExact_of_enough (Nat.le_of_eq hb.symm)]
  cases hd : (c.switch (env.threshold k)).decodePooled (buffer.overwrite 0 body) r with
  | mk result r2 =>
    rw [hd] at hr2
    cases result with
    | error e => exact yields_of_failure
    | ok p => exact yields_of_packet rfl (hnext.pollIn (k + 1) j hr2 hr1)

theorem yields_of_length {v : Int32} {head w : Bytes} (hv : Numeral32 head v)
    (hnext : ∀ f, Holds c f head → Agrees env c f s head w) (hr : r.Unlimited)
    (hr' : r'.Unlimited) :
    Yields env c k j (pollSized (c.switch (env.threshold k)) v s r)
      (expected env.threshold c k (head ++ w) r') := by
  have hmax : (c.switch (env.threshold k)).maxFrame = c.maxFrame := rfl
  unfold pollSized
  rw [hmax]
  cases hl : Frame.checkLength c.maxFrame v with
  | error e =>
    have ht : Frame.take c.maxFrame (head ++ w) = .error e := by
      simp only [Frame.take, scan32_of_numeral hv, hl]
    rw [expected_of_refusal ht]
    exact yields_of_failure
  | ok n =>
    obtain ⟨buffer, r1, ha⟩ := hr.acquire n
    have hn : buffer.length = n := Reserves.length_of_acquire ha
    have hpos : 1 ≤ n := (Frame.checkLength_eq_ok_iff.mp hl).2.1
    have hh : Holds c (.body buffer []) (head ++ []) :=
      .body hv (hn ▸ hl) (by rw [List.length_nil]; omega)
    rw [List.append_nil] at hh
    simp only [ha]
    exact hnext _ hh k j r1 r' ((Reserves.Path.of_acquire ha).unlimited hr) hr'

/-- Whatever pieces the rest arrives in, the read goes on to what is to be read. -/
theorem agrees_of_gives {g : Poll (Except IoError Bytes) × σ} {w : Bytes} {fin : Ending}
    (h : Gives g w fin) (hfin : fin = .closed) :
    ∀ (f : FrameRead) (p : Bytes) (s : σ), Holds c f p → Source.read f.room s = g →
      Agrees env c f s p w := by
  -- over the answers of the source, with what the read has taken of its frame as the invariant
  induction h with
  | pending _ ih =>
    intro f p s hf hs k j r r' hr hr'
    have hnext := (ih f.room hf.room_pos hfin f p _ hf rfl).pollIn k j hr hr'
    rw [poll_of_pause _ hf hs]
    exact yields_of_waiting hnext
  | @data s' b bs w fin _ ih =>
    intro f p s hf hs k j r r' hr hr'
    have hmore (f : FrameRead) (p : Bytes) (hf : Holds c f p) : Agrees env c f s' p w :=
      ih f.room hf.room_pos hfin f p s' hf rfl
    cases hf with
    | @length n p hn hp =>
      obtain ⟨rfl, -⟩ := readByte_of_data hs
      have happ : p ++ ([b] ++ w) = p ++ [b] ++ w := (List.append_assoc p [b] w).symm
      rw [happ]
      by_cases hb : b.toNat < 128
      · rw [poll_of_last _ hn hs hb]
        exact yields_of_length (hp.numeral hn hb) (fun f hf => hmore f _ hf) hr hr'
      · have hp' := hp.add hn (Nat.not_lt.mp hb)
        rw [poll_of_more _ hn hs (Nat.not_lt.mp hb)]
        by_cases hfull : (n.add b).groups < maxLength32
        · exact hmore _ _ (.length hfull hp') k j r r' hr hr'
        · rw [expected_of_refusal (take_of_full hp' (Nat.not_lt.mp hfull) w)]
          simp only [poll, NumberRead.poll_of_full (Nat.not_lt.mp hfull)]
          exact yields_of_failure
    | @body v buffer head got hv hl hg =>
      have hlen : bs.length + 1 ≤ buffer.length - got.length := Source.length_le hs
      have happ : head ++ got ++ (b :: bs ++ w) = head ++ (got ++ b :: bs) ++ w := by
        simp only [List.append_assoc]
      rw [happ, poll_of_piece _ hg hs]
      have hsum : (got ++ b :: bs).length = got.length + (bs.length + 1) := by simp
      by_cases hwhole : (got ++ b :: bs).length = buffer.length
      · exact yields_of_body hv hl hwhole (hmore _ _ (.start c)) hr hr'
      · exact hmore _ _ (.body hv hl (by omega)) k j r r' hr hr'
  | closed =>
    intro f p s hf hs k j r r' hr hr'
    rw [List.append_nil, expected_of_end hf.take_eq_none]
    cases hf with
    | @length n p hn hp =>
      have hzero : n.groups = 0 ↔ p.isEmpty := by
        rw [hp.groups, List.length_eq_zero_iff, List.isEmpty_iff]
      have hpoll := NumberRead.poll_of_error hn (readByte_of_end hs)
      simp only [NumberRead.failed, IoError.ofKind, if_true, hzero] at hpoll
      by_cases hempty : p.isEmpty
      · simp only [hempty, if_true] at hpoll ⊢
        simp only [poll, hpoll]
        exact yields_of_failure
      · simp only [hempty] at hpoll ⊢
        simp only [poll, hpoll]
        exact yields_of_failure
    | @body v buffer head got hv hl hg =>
      have hne : (head ++ got).isEmpty = false := by
        have := hv.length_pos
        cases head with
        | nil => cases this
        | cons b bs => rfl
      rw [hne]
      simp only [poll, pollBody, readExact_of_end hg hs]
      exact yields_of_failure
  | failed => cases hfin

end FrameRead

theorem Inbox.yields_of_feeds {σ : Type} [Source σ] (env : Surroundings) (c : Codec)
    (chunk : Nat) {s : σ} {w : Bytes} {e : Ending} (h : Feeds s w e) {r r' : Reserves}
    (hr : r.Unlimited) (hr' : r'.Unlimited) :
    Yields env 0 1 (pollIn env 0 0 { codec := c, chunk } s r)
      (c.decodeAll env.threshold e 0 w r') := by
  let i : Inbox := Inbox.switch { codec := c, chunk } (env.threshold 0)
  have hi : Agrees env c i s w e :=
    agrees_of_gives (h i.room i.room_pos) i s rfl (Frame.take_nil _) rfl
  exact hi 0 1 (env.others 0 r) r' rfl (env.unlimited 0 r hr) hr'

theorem SameItems.content {xs ys : List (Except WireError Packet)} (h : SameItems xs ys) :
    xs.map (Except.map Packet.content) = ys.map (Except.map Packet.content) := by
  have hc (zs : List (Except WireError Packet)) : (zs.map (Except.map Packet.trimmed)).map
      (Except.map Packet.content) = zs.map (Except.map Packet.content) := by
    rw [List.map_map]
    exact List.map_congr_left fun x _ => Packet.content_of_trimmed x
  rw [← hc xs, ← hc ys, h]

namespace FrameRead

/-- However the same bytes reach them, reading packet after packet and polling a stream give the
same packets and the same error. -/
theorem packets_eq_items (env env' : Inbox.Surroundings) (ht : env'.threshold = env.threshold)
    (c : Codec) (chunk : Nat) {σ σ' : Type} [Source σ] [Source σ'] {s : σ} {s' : σ'} {w : Bytes}
    (h : Feeds s w .closed) (h' : Feeds s' w .closed) {r r' : Reserves} (hr : r.Unlimited)
    (hr' : r'.Unlimited) :
    ∃ n, ∀ m, n ≤ m → ∃ xs ys, Inbox.items env m { codec := c, chunk } s r = some xs ∧
      packets env' c m s' r' = some ys ∧
      ys.map (Except.map Packet.content) = told (xs.map (Except.map Packet.content)) := by
  obtain ⟨n, hn⟩ := Inbox.yields_of_feeds env c chunk h hr hr'
  have hstart : Agrees env' c .start s' [] w :=
    agrees_of_gives (h' 1 Nat.one_pos) rfl .start [] s' (.start c) rfl
  obtain ⟨n', hn'⟩ := hstart.pollIn 0 0 hr' hr'
  refine ⟨max n n', fun m hm => ?_⟩
  obtain ⟨xs, hxs, hsame⟩ := hn m (by omega)
  obtain ⟨ys, hys, hsaid⟩ := hn' m (by omega)
  refine ⟨xs, ys, hxs, hys, ?_⟩
  rw [hsaid, hsame.content, ht]
  rfl

/-- Two packets and a frame that declares a size below the threshold, in two ways of cutting the
bytes. -/
theorem packets_eq_items_refused :
    let env : Inbox.Surroundings :=
      { threshold := fun k => if k = 0 then -1 else 64, others := fun _ r => r,
        unlimited := fun _ _ h => h }
    let s : Script := { reads := [.data [2, 5], .pending, .data [7, 3, 0, 6], .data [1, 2, 9, 4]] }
    let s' : Script := { reads := [.data [2, 5, 7, 3, 0], .data [6, 1, 2], .pending, .data [9, 4]] }
    let told : List (Except WireError Content) :=
      [.ok { id := 5, payload := [7], body := [5, 7] },
        .ok { id := 6, payload := [1], body := [6, 1] },
        .error (.invalidFrame .belowThreshold)]
    Feeds s [2, 5, 7, 3, 0, 6, 1, 2, 9, 4] .closed ∧
      Feeds s' [2, 5, 7, 3, 0, 6, 1, 2, 9, 4] .closed ∧
      ∃ n, ∀ m, n ≤ m → ∃ xs ys, Inbox.items env m { codec := {}, chunk := 1 } s {} = some xs ∧
        packets env {} m s' {} = some ys ∧ xs.map (Except.map Packet.content) = told ∧
        ys.map (Except.map Packet.content) = told := by
  intro env s s' told
  have hs : Feeds s [2, 5, 7, 3, 0, 6, 1, 2, 9, 4] .closed :=
    Script.feeds s.reads [] (by decide) rfl s rfl rfl
  have hs' : Feeds s' [2, 5, 7, 3, 0, 6, 1, 2, 9, 4] .closed :=
    Script.feeds s'.reads [] (by decide) rfl s' rfl rfl
  have hr : Reserves.Unlimited {} := rfl
  have hd : ({} : Codec).decodeAll env.threshold .closed 0 [2, 5, 7, 3, 0, 6, 1, 2, 9, 4] {} =
      [.ok ⟨5, .shared [5, 7], 0, 1⟩, .ok ⟨6, .shared [6, 1], 0, 1⟩,
        .error (.invalidFrame .belowThreshold)] := by
    rw [Codec.decodeAll_of_packet (p := ⟨5, .shared [5, 7], 0, 1⟩) rfl,
      Codec.decodeAll_of_packet (p := ⟨6, .shared [6, 1], 0, 1⟩) rfl,
      Codec.decodeAll_of_refusal rfl]
  obtain ⟨n, hn⟩ := packets_eq_items env env rfl {} 1 hs hs' hr hr
  obtain ⟨n', hn'⟩ := Inbox.yields_of_feeds env {} 1 hs hr hr
  refine ⟨hs, hs', max n n', fun m hm => ?_⟩
  obtain ⟨xs, ys, hxs, hys, hsaid⟩ := hn m (by omega)
  obtain ⟨xs', hxs', hsame⟩ := hn' m (by omega)
  obtain rfl : xs' = xs := Option.some.inj (hxs'.symm.trans hxs)
  have htold : xs'.map (Except.map Packet.content) = told := by
    rw [hsame.content, hd]
    rfl
  exact ⟨xs', ys, hxs, hys, htold, by rw [hsaid, htold]; rfl⟩

end FrameRead

end PacketWire
