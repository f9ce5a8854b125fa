import PacketWire.Endpoint.Script
import PacketWire.Proofs.Endpoint.Ciphered

/-!
# Ciphered transports are transparent

A `Dialogue` is a ciphered transport in use: it is written to, flushed, shut down and read from in
any order. Over a transport that never fails a write, what was encrypted is at every moment one
ciphertext, that of the texts of the writes that succeeded, and what was read is one plaintext, that
of the bytes delivered. So where one end's decryption undoes the other end's encryption, the texts
arrive.
-/

namespace PacketWire

namespace Transform

variable {ε δ : Type}

/-- Whether `d` undoes what `e` does to any stream. -/
def Inverts (d : Transform δ) (e : Transform ε) : Prop :=
  ∀ bs, (d.apply (e.apply bs).1).1 = bs

theorem take_apply (t : Transform ε) (n : Nat) (bs : Bytes) :
    (t.apply bs).1.take n = (t.apply (bs.take n)).1 := by
  have happly := t.apply_append (bs.take n) (bs.drop n)
  rw [List.take_append_drop] at happly
  rw [happly]
  by_cases hn : n ≤ bs.length
  · refine List.take_left' ?_
    rw [length_apply, List.length_take, Nat.min_eq_left hn]
  · have hdrop : bs.drop n = [] := List.drop_eq_nil_of_le (by omega)
    rw [hdrop, apply_nil, List.append_nil]
    refine List.take_of_length_le ?_
    rw [length_apply, List.length_take]
    exact Nat.min_le_left ..

/-- A part of a ciphertext is deciphered to the same part of the text. -/
theorem Inverts.prefix {d : Transform δ} {e : Transform ε} (h : d.Inverts e) {bs cs : Bytes}
    (hcs : cs <+: (e.apply bs).1) : (d.apply cs).1 <+: bs := by
  rw [List.prefix_iff_eq_take.mp hcs, take_apply, h]
  exact List.take_prefix ..

/-- It is enough that each byte is undone, whatever binds the two states. -/
theorem inverts_of_steps {d : Transform δ} {e : Transform ε} (R : ε → δ → Prop)
    (hstate : R e.state d.state)
    (hstep : ∀ s s' b, R s s' →
      (d.step s' (e.step s b).1).1 = b ∧ R (e.step s b).2 (d.step s' (e.step s b).1).2) :
    d.Inverts e := by
  have hfrom : ∀ bs s s', R s s' → (applyFrom d.step s' (applyFrom e.step s bs).1).1 = bs := by
    intro bs
    induction bs with
    | nil => exact fun _ _ _ => rfl
    | cons b bs ih =>
      intro s s' hs
      obtain ⟨hbyte, hs'⟩ := hstep s s' b hs
      exact congrArg₂ List.cons hbyte (ih _ _ hs')
  exact fun bs => hfrom bs e.state d.state hstate

end Transform

/-- Whether transports of which `P` holds take some of what they are offered, or let the writer
wait, and stay so. -/
structure Obliging {τ : Type} [Transport τ] (P : τ → Prop) : Prop where
  takes : ∀ {bs : Bytes} {k : τ}, P k → bs ≠ [] →
    (Sink.write bs k).1 = .pending ∨ ∃ n, (Sink.write bs k).1 = .ready (.ok (n + 1))
  read : ∀ {room : Nat} {k : τ}, P k → P (Source.read room k).2
  write : ∀ {bs : Bytes} {k : τ}, P k → P (Sink.write bs k).2
  flush : ∀ {k : τ}, P k → P (Sink.flush k).2
  shutdown : ∀ {k : τ}, P k → P (Sink.shutdown k).2

namespace Obliging

variable {τ : Type} [Transport τ] {P : τ → Prop}

theorem recorded (h : Obliging P) {bs : Bytes} (hb : ¬ bs.isEmpty = true) {k k' : Recorded τ}
    (hk : P k.inner) {p : Poll (Except IoError Nat)} (hw : Sink.write bs k = (p, k')) :
    (p = .pending ∨ ∃ n, p = .ready (.ok (n + 1))) ∧ P k'.inner := by
  have hinner : Sink.write bs k.inner = (p, k'.inner) := (Recorded.granted_eq hw).1
  have htakes := h.takes hk (show bs ≠ [] by simpa using hb)
  have hk' : P (Sink.write bs k.inner).2 := h.write hk
  rw [hinner] at htakes hk'
  exact ⟨htakes, hk'⟩

theorem pushAll (h : Obliging P) (bs : Bytes) (k : Recorded τ) (hk : P k.inner) :
    (∀ e, (PacketWire.pushAll bs k).1 ≠ .ready (.error e)) ∧
      P (PacketWire.pushAll bs k).2.2.inner := by
  fun_induction PacketWire.pushAll bs k with
  | case1 => exact ⟨by simp, hk⟩
  | case2 bs k hb k1 hw => exact ⟨by simp, (h.recorded hb hk hw).2⟩
  | case3 bs k hb e k1 hw => simpa using (h.recorded hb hk hw).1
  | case4 bs k hb k1 hw => simpa using (h.recorded hb hk hw).1
  | case5 bs k hb n k1 hw ih => exact ih (h.recorded hb hk hw).2

end Obliging

namespace Ciphered

variable {τ ε δ : Type} [Transport τ]

/-- Reads into a buffer that holds bytes already. New bytes come behind those, and only they are
deciphered. -/
def readInto (filled : Bytes) (room : Nat) (c : Ciphered τ ε δ) :
    Poll (Except IoError Unit) × Bytes × Ciphered τ ε δ :=
  match Source.read room c.inner with
  | (.pending, inner) => (.pending, filled, { c with inner })
  | (.ready (.error e), inner) => (.ready (.error e), filled, { c with inner })
  | (.ready (.ok bs), inner) =>
    let buffer := filled ++ bs
    let (plain, decrypt) := c.decrypt.apply (buffer.drop filled.length)
    (.ready (.ok ()), buffer.take filled.length ++ plain, { c with inner, decrypt })

/-- It is the same as reading, and putting what was read behind. -/
theorem readInto_eq (filled : Bytes) (room : Nat) (c : Ciphered τ ε δ) :
    c.readInto filled room =
      match Source.read room c with
      | (.pending, c) => (.pending, filled, c)
      | (.ready (.error e), c) => (.ready (.error e), filled, c)
      | (.ready (.ok bs), c) => (.ready (.ok ()), filled ++ bs, c) := by
  show c.readInto filled room = match c.read room with
      | (.pending, c) => (.pending, filled, c)
      | (.ready (.error e), c) => (.ready (.error e), filled, c)
      | (.ready (.ok bs), c) => (.ready (.ok ()), filled ++ bs, c)
  unfold readInto read
  rcases Source.read room c.inner with ⟨_ | _ | bs, inner⟩
  · rfl
  · rfl
  · simp only [List.drop_left, List.take_left]

def delivery : Poll (Except IoError Bytes) → Bytes
  | .ready (.ok bs) => bs
  | _ => []

theorem readInto_delivery (filled : Bytes) (room : Nat) (c : Ciphered τ ε δ) :
    (c.readInto filled room).2 =
      let answer := Source.read room c.inner
      let deciphered := c.decrypt.apply (delivery answer.1)
      (filled ++ deciphered.1, { c with inner := answer.2, decrypt := deciphered.2 }) := by
  unfold readInto
  split <;> rename_i hr <;>
    simp only [hr, delivery, Transform.apply_nil, List.append_nil, List.drop_left, List.take_left]

/-! ## Writing where no write fails -/

variable {c : Ciphered (Recorded τ) ε δ} {P : τ → Prop}

theorem drain_obliged (h : Obliging P) (hc : P c.inner.inner) :
    (∀ e, c.drain.1 ≠ .ready (.error e)) ∧ P c.drain.2.inner.inner ∧
      c.drain.2.pending.length ≤ c.pending.length := by
  obtain ⟨hnofail, hkept⟩ := h.pushAll c.pending c.inner hc
  obtain ⟨⟨front, hsum, -⟩, -⟩ := Recorded.keeps_accepted.pushAll c.pending c.inner
    (a := (pushAll c.pending c.inner).1) rfl
  refine ⟨hnofail, hkept, ?_⟩
  show (pushAll c.pending c.inner).2.1.length ≤ c.pending.length
  have hlength := congrArg List.length hsum
  rw [List.length_append] at hlength
  exact Nat.le_trans (Nat.le_add_left ..) (Nat.le_of_eq hlength)

/-- Writing fails nowhere, and leaves no more pending than its text or what was pending before. -/
theorem write_obliged (h : Obliging P) (hc : P c.inner.inner) (bs : Bytes) :
    (∀ e, (c.write bs).1 ≠ .ready (.error e)) ∧ P (c.write bs).2.inner.inner ∧
      (c.write bs).2.pending.length ≤
        match (c.write bs).1 with
        | .ready _ => bs.length
        | .pending => c.pending.length := by
  obtain ⟨hnofail, hkept, hle⟩ := drain_obliged h hc
  rcases hw : c.write bs with ⟨a, c'⟩
  have hown {d d' : Ciphered (Recorded τ) ε δ} {a : Poll (Except IoError Unit)}
      (older : c.drain = (.ready (.ok ()), d)) (own : (d.encode bs).drain = (a, d')) :
      (∀ e, a ≠ .ready (.error e)) ∧ P d'.inner.inner ∧ d'.pending.length ≤ bs.length := by
    rw [older] at hkept
    have hpending : d.pending = [] := (drain_eq older).2.1.mp rfl
    have hobliged := drain_obliged (c := d.encode bs) h hkept
    rw [own] at hobliged
    simpa [encode, hpending] using hobliged
  cases wrote hw with
  | waits older =>
    rw [older] at hkept hle
    exact ⟨by simp, hkept, hle⟩
  | stops older => exact absurd (congrArg Prod.fst older) (hnofail _)
  | idles older empty =>
    rw [older] at hkept
    have hpending : c'.pending = [] := (drain_eq older).2.1.mp rfl
    exact ⟨by simp, hkept, by simp [hpending]⟩
  | fails older own => exact absurd rfl ((hown older own).1 _)
  | takes older own => exact ⟨by simp, (hown older own).2⟩

/-- Calls that take no bytes: they change neither the stream nor the encryption, and leave no more
pending. -/
theorem afterDrain_obliged (h : Obliging P) (hc : P c.inner.inner)
    {act : Recorded τ → Poll (Except IoError Unit) × Recorded τ}
    (hact : ∀ k, P k.inner → P (act k).2.inner) (htaken : ∀ k, (act k).2.accepted = k.accepted) :
    Extends c [] (c.afterDrain act).2 ∧ P (c.afterDrain act).2.inner.inner ∧
      (c.afterDrain act).2.pending.length ≤ c.pending.length := by
  obtain ⟨-, hkept, hle⟩ := drain_obliged h hc
  unfold afterDrain
  split
  · rename_i d hd
    rw [hd] at hkept hle
    obtain ⟨hext, -⟩ := drain_eq hd
    refine ⟨extends_nil_iff.mpr ⟨?_, (extends_nil_iff.mp hext).2⟩, hact _ hkept, hle⟩
    rw [← (extends_nil_iff.mp hext).1]
    simp only [stream, htaken]
  · rename_i a d hne hd
    rw [hd] at hkept hle
    exact ⟨(drain_eq hd).1, hkept, hle⟩

theorem afterDrain_of_pending (h : c.drain.2.pending ≠ [])
    (act : Recorded τ → Poll (Except IoError Unit) × Recorded τ) :
    c.afterDrain act = c.drain := by
  unfold afterDrain
  split
  · rename_i d hd
    have hpending : d.pending = [] := (drain_eq hd).2.1.mp rfl
    rw [hd] at h
    exact absurd hpending h
  · rename_i a d hne hd
    exact hd.symm

end Ciphered

/-! ## Dialogues -/

/-- A ciphered transport in use. -/
structure Dialogue (τ ε δ : Type) where
  stream : Ciphered (Recorded τ) ε δ
  /-- The texts of the writes that succeeded, in order. -/
  texts : List Bytes := []
  delivered : Bytes := []
  /-- What reads have put into the buffers they were given. -/
  plain : Bytes := []

namespace Dialogue

/-- What can be done to a transport. -/
inductive Call (τ : Type) where
  | write (bs : Bytes)
  | flush
  | shutdown
  /-- Reads into a buffer that holds `filled` already and has so much room behind it. -/
  | read (filled : Bytes) (room : Nat)
  | elsewhere (act : τ → τ)

variable {τ ε δ : Type} [Transport τ]

omit [Transport τ] in
def start (t : τ) (e : Transform ε) (d : Transform δ) : Dialogue τ ε δ :=
  { stream := { inner := { inner := t }, encrypt := e, decrypt := d } }

def step (g : Dialogue τ ε δ) : Call τ → Dialogue τ ε δ
  | .write bs =>
    match Sink.write bs g.stream with
    | (.ready (.ok _), stream) => { g with stream, texts := g.texts ++ [bs] }
    | (_, stream) => { g with stream }
  | .flush => { g with stream := (Sink.flush g.stream).2 }
  | .shutdown => { g with stream := (Sink.shutdown g.stream).2 }
  | .read filled room =>
    let (_, buffer, stream) := g.stream.readInto filled room
    { g with
      stream,
      delivered := g.delivered ++ Ciphered.delivery (Source.read room g.stream.inner).1,
      plain := g.plain ++ buffer.drop filled.length }
  | .elsewhere act =>
    let inner := { g.stream.inner with inner := act g.stream.inner.inner }
    { g with stream := { g.stream with inner } }

def run (calls : List (Call τ)) (g : Dialogue τ ε δ) : Dialogue τ ε δ := calls.foldl step g

variable {g : Dialogue τ ε δ} {P : τ → Prop} {e : Transform ε} {d : Transform δ}

/-! ## Reading -/

/-- What was read is the plaintext of what was delivered. -/
structure Deciphers (d : Transform δ) (g : Dialogue τ ε δ) : Prop where
  plain : g.plain = (d.apply g.delivered).1
  decrypt : g.stream.decrypt = (d.apply g.delivered).2

namespace Deciphers

theorem of_write (h : g.Deciphers d) (bs : Bytes) : (g.step (.write bs)).Deciphers d := by
  have hdrain {c c' : Ciphered (Recorded τ) ε δ} {a : Poll (Except IoError Unit)}
      (h : c.drain = (a, c')) : c'.decrypt = c.decrypt := congrArg (fun x => x.2.decrypt) h.symm
  have hdecrypt : (g.stream.write bs).2.decrypt = g.stream.decrypt := by
    rcases hw : g.stream.write bs with ⟨a, c'⟩
    cases Ciphered.wrote hw with
    | waits older | stops older | idles older => exact hdrain older
    | fails older own | takes older own =>
      have hfirst := hdrain older
      exact (hdrain own).trans hfirst
  have hstream : (g.step (.write bs)).stream = (g.stream.write bs).2 ∧
      (g.step (.write bs)).delivered = g.delivered ∧ (g.step (.write bs)).plain = g.plain := by
    unfold Dialogue.step
    simp only
    split <;> rename_i hw <;> exact ⟨congrArg Prod.snd hw.symm, rfl, rfl⟩
  obtain ⟨hstream, hdelivered, hplain⟩ := hstream
  exact ⟨by rw [hplain, hdelivered, h.plain], by rw [hstream, hdelivered, hdecrypt, h.decrypt]⟩

theorem of_afterDrain (h : g.Deciphers d)
    (act : Recorded τ → Poll (Except IoError Unit) × Recorded τ) :
    Deciphers d { g with stream := (g.stream.afterDrain act).2 } := by
  refine ⟨h.plain, ?_⟩
  have hdecrypt : (g.stream.afterDrain act).2.decrypt = g.stream.decrypt := by
    unfold Ciphered.afterDrain
    split <;> rename_i hd <;> exact congrArg (fun x => x.2.decrypt) hd.symm
  exact hdecrypt.trans h.decrypt

theorem of_read (h : g.Deciphers d) (filled : Bytes) (room : Nat) :
    (g.step (.read filled room)).Deciphers d := by
  have hread := Ciphered.readInto_delivery filled room g.stream
  have happly := d.apply_append g.delivered
    (Ciphered.delivery (Source.read room g.stream.inner).1)
  rw [← h.decrypt] at happly
  refine ⟨?_, ?_⟩
  · show g.plain ++ (g.stream.readInto filled room).2.1.drop filled.length = _
    simp only [step, hread, List.drop_left, happly, h.plain]
  · show (g.stream.readInto filled room).2.2.decrypt = _
    simp only [step, hread, happly]

theorem step (h : g.Deciphers d) (call : Call τ) : (g.step call).Deciphers d := by
  cases call with
  | write bs => exact h.of_write bs
  | flush => exact h.of_afterDrain Sink.flush
  | shutdown => exact h.of_afterDrain Sink.shutdown
  | read filled room => exact h.of_read filled room
  | elsewhere act => exact ⟨h.plain, h.decrypt⟩

theorem run (h : g.Deciphers d) (calls : List (Call τ)) : (g.run calls).Deciphers d := by
  induction calls generalizing g with
  | nil => exact h
  | cons call calls ih => exact ih (h.step call)

end Deciphers

/-! ## Writing -/

/-- What was encrypted is one ciphertext, that of the texts, and what is still pending belongs to
the last of them. -/
structure Enciphers (P : τ → Prop) (e : Transform ε) (g : Dialogue τ ε δ) : Prop where
  stream : g.stream.stream = (e.apply g.texts.flatten).1
  encrypt : g.stream.encrypt = (e.apply g.texts.flatten).2
  pending : g.stream.pending.length ≤ (g.texts.getLast?.getD []).length
  obliging : P g.stream.inner.inner

namespace Enciphers

variable {c : Ciphered (Recorded τ) ε δ}

omit [Transport τ] in
theorem same (h : g.Enciphers P e) (hext : g.stream.Extends [] c)
    (hpending : c.pending.length ≤ g.stream.pending.length) (hc : P c.inner.inner) :
    Enciphers P e { g with stream := c } where
  stream := (Ciphered.extends_nil_iff.mp hext).1.trans h.stream
  encrypt := (Ciphered.extends_nil_iff.mp hext).2.trans h.encrypt
  pending := Nat.le_trans hpending h.pending
  obliging := hc

omit [Transport τ] in
theorem longer (h : g.Enciphers P e) {bs : Bytes} (hext : g.stream.Extends bs c)
    (hpending : c.pending.length ≤ bs.length) (hc : P c.inner.inner) :
    Enciphers P e { g with stream := c, texts := g.texts ++ [bs] } where
  stream := by
    simp only [List.flatten_append, List.flatten_singleton, Transform.apply_append]
    rw [hext.stream, h.stream, h.encrypt]
  encrypt := by
    simp only [List.flatten_append, List.flatten_singleton, Transform.apply_append]
    rw [hext.encrypt, h.encrypt]
  pending := by simpa using hpending
  obliging := hc

theorem of_write (h : g.Enciphers P e) (hP : Obliging P) (bs : Bytes) :
    (g.step (.write bs)).Enciphers P e := by
  obtain ⟨hnofail, hkept, hle⟩ := Ciphered.write_obliged hP h.obliging bs
  have hanswer := Ciphered.write_answers bs g.stream
  unfold Dialogue.step
  simp only
  split
  · rename_i n c hw
    rw [show g.stream.write bs = _ from hw] at hanswer hkept hle
    exact h.longer hanswer.2 hle hkept
  · rename_i a c hne hw
    rw [show g.stream.write bs = _ from hw] at hanswer hkept hle hnofail
    obtain _ | _ | n := a
    · exact h.same hanswer hle hkept
    · exact absurd rfl (hnofail _)
    · exact absurd rfl (hne n)

theorem of_afterDrain (h : g.Enciphers P e) (hP : Obliging P)
    {act : Recorded τ → Poll (Except IoError Unit) × Recorded τ}
    (hact : ∀ k, P k.inner → P (act k).2.inner) (htaken : ∀ k, (act k).2.accepted = k.accepted) :
    Enciphers P e { g with stream := (g.stream.afterDrain act).2 } := by
  obtain ⟨hext, hkept, hle⟩ := Ciphered.afterDrain_obliged hP h.obliging hact htaken
  exact h.same hext hle hkept

theorem of_read (h : g.Enciphers P e) (hP : Obliging P) (filled : Bytes) (room : Nat) :
    (g.step (.read filled room)).Enciphers P e := by
  have hread := Ciphered.readInto_delivery filled room g.stream
  have hlog : (Source.read room g.stream.inner).2.log = g.stream.inner.log := rfl
  have hstream : (g.stream.readInto filled room).2.2.stream = g.stream.stream := by
    simp only [hread, Ciphered.stream, Recorded.accepted, hlog]
  refine ⟨hstream.trans h.stream, ?_, ?_, ?_⟩
  · show (g.stream.readInto filled room).2.2.encrypt = _
    simp only [hread, h.encrypt, Dialogue.step]
  · show (g.stream.readInto filled room).2.2.pending.length ≤ _
    simp only [hread]
    exact h.pending
  · show P (g.stream.readInto filled room).2.2.inner.inner
    simp only [hread]
    exact hP.read h.obliging

theorem step (h : g.Enciphers P e) (hP : Obliging P) (call : Call τ)
    (hcall : ∀ act, call = .elsewhere act → ∀ k, P k → P (act k)) :
    (g.step call).Enciphers P e := by
  cases call with
  | write bs => exact h.of_write hP bs
  | flush => exact h.of_afterDrain hP (fun _ => hP.flush) (fun _ => Recorded.accepted_flush rfl)
  | shutdown =>
    exact h.of_afterDrain hP (fun _ => hP.shutdown) (fun _ => Recorded.accepted_shutdown rfl)
  | read filled room => exact h.of_read hP filled room
  | elsewhere act => exact ⟨h.stream, h.encrypt, h.pending, hcall act rfl _ h.obliging⟩

theorem run (h : g.Enciphers P e) (hP : Obliging P) (calls : List (Call τ))
    (hcalls : ∀ act, .elsewhere act ∈ calls → ∀ k, P k → P (act k)) :
    (g.run calls).Enciphers P e := by
  induction calls generalizing g with
  | nil => exact h
  | cons call calls ih =>
    refine ih (h.step hP call fun act hact => ?_) fun act hmem => ?_
    · exact hcalls act (hact ▸ List.mem_cons_self ..)
    · exact hcalls act (List.mem_cons_of_mem _ hmem)

theorem write_takes_all (h : g.Enciphers P e) (hP : Obliging P) (bs : Bytes) :
    match g.stream.write bs with
    | (.ready (.ok n), _) => n = bs.length
    | (.pending, c) => c.stream = g.stream.stream ∧ c.encrypt = g.stream.encrypt
    | (.ready (.error _), _) => False := by
  have hnofail := (Ciphered.write_obliged hP h.obliging bs).1
  have hanswer := Ciphered.write_answers bs g.stream
  split <;> rename_i hw <;> rw [hw] at hanswer hnofail
  · exact hanswer.1
  · exact Ciphered.extends_nil_iff.mp hanswer
  · exact hnofail _ rfl

end Enciphers

/-! ## Both ways together -/

omit [Transport τ] in
theorem start_enciphers {t : τ} (ht : P t) (e : Transform ε) (d : Transform δ) :
    (start t e d).Enciphers P e :=
  ⟨rfl, rfl, Nat.le_refl _, ht⟩

omit [Transport τ] in
theorem start_deciphers (t : τ) (e : Transform ε) (d : Transform δ) :
    (start t e d).Deciphers d :=
  ⟨rfl, rfl⟩

/-- Over a transport that never fails a write, what it took and what is pending are the ciphertext
of the texts, and what was read is the plaintext of what was delivered. So whoever deciphers at the
far end has read a beginning of the texts, and all of them at last. -/
theorem transparent (hP : Obliging P) {t : τ} (ht : P t) (e : Transform ε) (d : Transform δ)
    (calls : List (Call τ)) (hcalls : ∀ act, .elsewhere act ∈ calls → ∀ k, P k → P (act k)) :
    let g := (start t e d).run calls
    (g.stream.inner.accepted ++ g.stream.pending = (e.apply g.texts.flatten).1 ∧
      (∀ bs, match Sink.write bs g.stream with
        | (.ready (.ok n), _) => n = bs.length
        | (.pending, c) => c.stream = g.stream.stream ∧ c.encrypt = g.stream.encrypt
        | (.ready (.error _), _) => False) ∧
      g.stream.pending.length ≤ (g.texts.getLast?.getD []).length ∧
      (g.stream.drain.2.pending ≠ [] →
        Sink.flush g.stream = g.stream.drain ∧ Sink.shutdown g.stream = g.stream.drain)) ∧
    (g.plain = (d.apply g.delivered).1 ∧
      ∀ filled room, filled <+: (g.stream.readInto filled room).2.1) ∧
    ∀ {τ' ε' δ' : Type} [Transport τ'] (t' : τ') (e' : Transform ε') (d' : Transform δ')
      (calls' : List (Call τ')),
      let g' := (start t' e' d').run calls'
      d'.Inverts e → g'.delivered <+: g.stream.inner.accepted →
        g'.plain <+: g.texts.flatten ∧
          (g'.delivered = g.stream.inner.accepted → g.stream.pending = [] →
            g'.plain = g.texts.flatten) := by
  intro g
  have hsent : g.Enciphers P e := (start_enciphers ht e d).run hP calls hcalls
  have hread : g.Deciphers d := (start_deciphers t e d).run calls
  refine ⟨⟨hsent.stream, hsent.write_takes_all hP, hsent.pending, fun h => ?_⟩,
    ⟨hread.plain, fun filled room => ?_⟩, fun t' e' d' calls' => ?_⟩
  · exact ⟨Ciphered.afterDrain_of_pending h Sink.flush,
      Ciphered.afterDrain_of_pending h Sink.shutdown⟩
  · rw [Ciphered.readInto_delivery]
    exact List.prefix_append ..
  · intro g' hinverts hdelivered
    have hfar : g'.Deciphers d' := (start_deciphers t' e' d').run calls'
    have hstream : g.stream.inner.accepted ++ g.stream.pending = (e.apply g.texts.flatten).1 :=
      hsent.stream
    refine ⟨?_, fun hall hpending => ?_⟩
    · rw [hfar.plain]
      refine hinverts.prefix (hdelivered.trans ?_)
      rw [← hstream]
      exact List.prefix_append ..
    · rw [hpending, List.append_nil] at hstream
      rw [hfar.plain, hall, hstream, hinverts]

def masking (key : UInt8) : Transform UInt8 where
  state := key
  step k b := (b ^^^ k, k * 31 + 7)

theorem masking_inverts (key : UInt8) : (masking key).Inverts (masking key) := by
  refine Transform.inverts_of_steps Eq rfl fun k k' b hk => ?_
  subst hk
  refine ⟨?_, rfl⟩
  show b ^^^ k ^^^ k = b
  rw [UInt8.xor_assoc, UInt8.xor_self, UInt8.xor_zero]

/-- Whether a script's sink takes a byte or more, or lets the writer wait, each time. -/
def WritesOn (s : Script) : Prop :=
  ∀ event ∈ s.writes, event = .pending ∨ ∃ n, event = .accept (n + 1)

theorem writesOn_obliging : Obliging WritesOn where
  takes {bs s} hs hbs := by
    show (s.write bs).1 = _ ∨ ∃ n, (s.write bs).1 = _
    obtain ⟨b, bs, rfl⟩ := List.exists_cons_of_ne_nil hbs
    unfold Script.write
    split <;> rename_i hw
    · exact .inr ⟨bs.length, rfl⟩
    · rename_i n events
      obtain hevent | ⟨m, hevent⟩ := hs _ (hw ▸ List.mem_cons_self ..)
      · cases hevent
      · cases hevent
        exact .inr ⟨min m bs.length, by simp [Nat.succ_min_succ]⟩
    · exact .inl rfl
    · obtain hevent | ⟨m, hevent⟩ := hs _ (hw ▸ List.mem_cons_self ..) <;> cases hevent
  read {room s} hs := by
    show WritesOn (s.read room).2
    unfold Script.read
    split <;> exact hs
  write {bs s} hs := by
    show WritesOn (s.write bs).2
    unfold Script.write
    split <;> rename_i hw
    · exact hs
    all_goals exact fun event hmem => hs event (hw ▸ List.mem_cons_of_mem _ hmem)
  flush hs := hs
  shutdown hs := hs

/-- A transport that takes two bytes, pauses twice, takes one and pauses again. -/
def hesitant : Script := { writes := [.accept 2, .pending, .pending, .accept 1, .pending] }

/-- The second write has to wait, is made again, and only a flush brings out the rest. -/
def spoken : List (Call Script) :=
  [.write [1, 2, 3], .write [4, 5], .write [4, 5], .flush]

def heard : Script := { reads := [.data [8, 28], .pending, .data [170, 122, 76]] }

def listened : List (Call Script) := [.read [7] 8, .read [] 8, .read [7] 2, .read [] 8]

theorem transparent_masked :
    let near := (start hesitant (masking 9) (masking 9)).run spoken
    let far := (start heard (masking 0) (masking 9)).run listened
    near.texts = [[1, 2, 3], [4, 5]] ∧
      near.stream.inner.accepted ++ near.stream.pending =
        ((masking 9).apply near.texts.flatten).1 ∧
      near.stream.pending = [] ∧ far.delivered = near.stream.inner.accepted ∧
      far.plain = [1, 2, 3, 4, 5] := by
  intro near far
  have hobliges : WritesOn hesitant := by
    unfold WritesOn hesitant
    simp
  obtain ⟨⟨hstream, -⟩, -, hfar⟩ := transparent writesOn_obliging hobliges (masking 9) (masking 9)
    spoken (by simp [spoken])
  have htexts : near.texts = [[1, 2, 3], [4, 5]] := by decide +kernel
  have hpending : near.stream.pending = [] := by decide +kernel
  have hdelivered : far.delivered = near.stream.inner.accepted := by decide +kernel
  obtain ⟨-, hall⟩ := hfar heard (masking 0) (masking 9) listened (masking_inverts 9)
    (hdelivered ▸ List.prefix_refl far.delivered)
  refine ⟨htexts, hstream, hpending, hdelivered, ?_⟩
  rw [show far.plain = near.texts.flatten from hall hdelivered hpending, htexts]
  rfl

end Dialogue

end PacketWire
