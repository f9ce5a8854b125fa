import Mathlib.Control.Monad.Basic
import PacketWire.Endpoint.Ciphered
import PacketWire.Proofs.Endpoint.Recorded

/-!
# What a ciphered transport has accepted

`stream` is everything that was encrypted: the bytes that the transport took and those still
pending. `Extends c bs c'` says that exactly the text `bs` was accepted between `c` and `c'`: the
stream grew by its ciphertext, and the next byte meets the state behind it. A write that succeeds
accepts all of its text and one that waits accepts none. A write that fails accepts none if it
failed on older bytes, and all if it failed on its own; so writing to the end, which tries again
after a disturbance, accepts its text once or several times.
-/

namespace PacketWire

namespace Transform

variable {ε : Type}

theorem apply_nil (t : Transform ε) : t.apply [] = ([], t) := rfl

theorem apply_append (t : Transform ε) (as bs : Bytes) :
    t.apply (as ++ bs) =
      ((t.apply as).1 ++ ((t.apply as).2.apply bs).1, ((t.apply as).2.apply bs).2) := by
  simp only [apply, applyFrom_append]

end Transform

namespace Ciphered

variable {τ ε δ : Type} [Transport τ]

omit [Transport τ] in
/-- The ciphertext so far, taken by the transport or not. -/
def stream (c : Ciphered (Recorded τ) ε δ) : Bytes := c.inner.accepted ++ c.pending

/-! ## Accepting a text -/

/-- Exactly the text `bs` was accepted between `c` and `c'`. -/
structure Extends (c : Ciphered (Recorded τ) ε δ) (bs : Bytes) (c' : Ciphered (Recorded τ) ε δ) :
    Prop where
  stream : c'.stream = c.stream ++ (c.encrypt.apply bs).1
  encrypt : c'.encrypt = (c.encrypt.apply bs).2

variable {c c' c'' : Ciphered (Recorded τ) ε δ} {as bs : Bytes}

omit [Transport τ] in
/-- Nothing was accepted if neither the stream nor the encryption's state has changed. -/
theorem extends_nil_iff : Extends c [] c' ↔ c'.stream = c.stream ∧ c'.encrypt = c.encrypt := by
  simp only [Transform.apply_nil, List.append_nil,
    show Extends c [] c' ↔ c'.stream = c.stream ++ (c.encrypt.apply []).1 ∧
      c'.encrypt = (c.encrypt.apply []).2 from ⟨fun h => ⟨h.1, h.2⟩, fun h => ⟨h.1, h.2⟩⟩]

omit [Transport τ] in
theorem Extends.trans (h : Extends c as c') (h' : Extends c' bs c'') :
    Extends c (as ++ bs) c'' where
  stream := by rw [h'.stream, h.stream, h.encrypt, Transform.apply_append, List.append_assoc]
  encrypt := by rw [h'.encrypt, h.encrypt, Transform.apply_append]

/-- Draining moves bytes over to the transport, and accepts none. -/
theorem drain_eq {a : Poll (Except IoError Unit)} (h : c.drain = (a, c')) :
    Extends c [] c' ∧ (a = .ready (.ok ()) ↔ c'.pending = []) ∧
      c.inner.accepted <+: c'.inner.accepted := by
  obtain ⟨⟨front, hsum, htaken⟩, hdone⟩ := Recorded.keeps_accepted.pushAll c.pending c.inner
    (a := (pushAll c.pending c.inner).1) rfl
  cases h
  refine ⟨extends_nil_iff.mpr ⟨?_, rfl⟩, hdone, front, htaken.symm⟩
  simp only [stream, htaken, List.append_assoc, hsum]

omit [Transport τ] in
theorem stream_eq_accepted (h : c.pending = []) : c.stream = c.inner.accepted := by
  rw [stream, h, List.append_nil]

omit [Transport τ] in
theorem accepted_lt_stream_iff :
    c.inner.accepted.length < c.stream.length ↔ c.pending ≠ [] := by
  rw [stream, List.length_append, ← List.length_pos_iff]
  omega

/-! ## Writing -/

/-- What the answer to a write says of its text: a success that all of it was accepted, a wait that
none was, and a failure that none was if older bytes are pending, and else all. -/
def Answers (c : Ciphered (Recorded τ) ε δ) (bs : Bytes) :
    Poll (Except IoError Nat) × Ciphered (Recorded τ) ε δ → Prop
  | (.pending, c') => Extends c [] c'
  | (.ready (.ok n), c') => n = bs.length ∧ Extends c bs c'
  | (.ready (.error _), c') =>
    Extends c (if c'.inner.accepted.length < c.stream.length then [] else bs) c'

omit [Transport τ] in
/-- The text joins the stream where it is encrypted, whatever becomes of it then. -/
theorem extends_encode (bs : Bytes) (c : Ciphered (Recorded τ) ε δ) :
    Extends c bs (c.encode bs) where
  stream := by simp only [stream, encode, List.append_assoc]
  encrypt := rfl

theorem write_answers (bs : Bytes) (c : Ciphered (Recorded τ) ε δ) :
    c.Answers bs (c.write bs) := by
  rcases hw : c.write bs with ⟨a, c'⟩
  cases wrote hw with
  | waits older => exact (drain_eq older).1
  | stops older =>
    obtain ⟨hext, hdone, -⟩ := drain_eq older
    have hpending : c'.pending ≠ [] := fun h => by simpa using hdone.mpr h
    rw [Answers, ← (extends_nil_iff.mp hext).1, if_pos (accepted_lt_stream_iff.mpr hpending)]
    exact hext
  | idles older empty =>
    subst empty
    exact ⟨rfl, (drain_eq older).1⟩
  | @fails d _ _ older own =>
    obtain ⟨hext, hdone, -⟩ := drain_eq older
    obtain ⟨hext', -, hmono⟩ := drain_eq own
    have hall : ¬ c'.inner.accepted.length < c.stream.length := by
      rw [← (extends_nil_iff.mp hext).1, stream_eq_accepted (hdone.mp rfl)]
      exact Nat.not_lt.mpr hmono.length_le
    rw [Answers, if_neg hall]
    simpa using (hext.trans (extends_encode bs d)).trans hext'
  | @takes d _ _ older own =>
    refine ⟨rfl, ?_⟩
    simpa using ((drain_eq older).1.trans (extends_encode bs d)).trans (drain_eq own).1

def copies (n : Nat) (bs : Bytes) : Bytes := (List.replicate n bs).flatten

theorem copies_add (m n : Nat) (bs : Bytes) : copies (m + n) bs = copies m bs ++ copies n bs := by
  rw [copies, ← List.replicate_append_replicate, List.flatten_append, copies, copies]

theorem copies_one (bs : Bytes) : copies 1 bs = bs := List.append_nil bs

/-- How often the text of `pushAll` was accepted; all of it may be left where a write failed that
had accepted it. -/
def PushedCopies (c : Ciphered (Recorded τ) ε δ) (bs : Bytes) :
    Poll (Except IoError Unit) × Bytes × Ciphered (Recorded τ) ε δ → Prop
  | (.pending, rest, c') => rest = bs ∧ Extends c [] c'
  | (.ready (.ok ()), _, c') => Extends c bs c'
  | (.ready (.error _), rest, c') => rest = bs ∧ ∃ n ≤ 1, Extends c (copies n bs) c'

theorem pushAll_pushedCopies (bs : Bytes) (c : Ciphered (Recorded τ) ε δ) :
    PushedCopies c bs (pushAll bs c) := by
  unfold pushAll
  split
  · rename_i hb
    rw [List.isEmpty_iff.mp hb]
    exact extends_nil_iff.mpr ⟨rfl, rfl⟩
  · rename_i hb
    have hanswer := write_answers bs c
    split <;> rename_i hw <;> rw [show c.write bs = _ from hw] at hanswer
    · exact ⟨rfl, hanswer⟩
    · refine ⟨rfl, ?_⟩
      rw [Answers] at hanswer
      split at hanswer
      · exact ⟨0, by decide, hanswer⟩
      · exact ⟨1, by decide, (copies_one bs).symm ▸ hanswer⟩
    · have : bs.length = 0 := hanswer.1.symm
      simp_all
    · obtain ⟨hn, hext⟩ := hanswer
      have hall : bs.drop (_ + 1) = [] := hn ▸ List.drop_length
      rw [hall, pushAll]
      exact hext

/-- How often the text of `writeAll` was accepted: at most once more for every disturbance. -/
def WroteCopies (c : Ciphered (Recorded τ) ε δ) (bs : Bytes) :
    Progress Bytes (Except IoError Unit) × Ciphered (Recorded τ) ε δ → Prop
  | (.waiting rest, c') =>
    rest = bs ∧ ∃ n, n + Sink.patience c' ≤ Sink.patience c ∧ Extends c (copies n bs) c'
  | (.done (.ok ()), c') =>
    ∃ n, n + Sink.patience c' ≤ Sink.patience c ∧ Extends c (copies (n + 1) bs) c'
  | (.done (.error _), c') =>
    ∃ n, n + Sink.patience c' ≤ Sink.patience c + 1 ∧ Extends c (copies n bs) c'

theorem WroteCopies.prepend {n : Nat} (hn : n + Sink.patience c' ≤ Sink.patience c)
    (hext : Extends c (copies n bs) c')
    {w : Progress Bytes (Except IoError Unit) × Ciphered (Recorded τ) ε δ}
    (h : WroteCopies c' bs w) : WroteCopies c bs w := by
  obtain ⟨_ | _ | _, d⟩ := w
  · obtain ⟨hrest, m, hm, hext'⟩ := h
    exact ⟨hrest, n + m, by omega, copies_add n m bs ▸ hext.trans hext'⟩
  · obtain ⟨m, hm, hext'⟩ := h
    exact ⟨n + m, by omega, copies_add n m bs ▸ hext.trans hext'⟩
  · obtain ⟨m, hm, hext'⟩ := h
    exact ⟨n + m, by omega, copies_add n (m + 1) bs ▸ hext.trans hext'⟩

theorem writeAll_wroteCopies (bs : Bytes) (c : Ciphered (Recorded τ) ε δ) :
    WroteCopies c bs (writeAll bs c) := by
  fun_induction writeAll bs c with
  | case1 bs c rest c' hp =>
    have hle : Sink.patience c' ≤ Sink.patience c := by
      simpa only [hp] using patience_pushAll_le bs c
    obtain ⟨hrest, hext⟩ : PushedCopies c bs _ := hp ▸ pushAll_pushedCopies bs c
    exact ⟨hrest, 0, by omega, hext⟩
  | case2 bs c rest c' hp =>
    have hle : Sink.patience c' ≤ Sink.patience c := by
      simpa only [hp] using patience_pushAll_le bs c
    have hext : PushedCopies c bs _ := hp ▸ pushAll_pushedCopies bs c
    exact ⟨0, by omega, (copies_one bs).symm ▸ hext⟩
  | case3 bs c e rest c' hp hk ih =>
    have hlt := patience_pushAll_lt bs c hp hk
    obtain ⟨hrest, n, hn, hext⟩ : PushedCopies c bs _ := hp ▸ pushAll_pushedCopies bs c
    subst hrest
    exact ih.prepend (by omega) hext
  | case4 bs c e rest c' hp hk =>
    have hle : Sink.patience c' ≤ Sink.patience c := by
      simpa only [hp] using patience_pushAll_le bs c
    obtain ⟨hrest, n, hn, hext⟩ : PushedCopies c bs _ := hp ▸ pushAll_pushedCopies bs c
    exact ⟨n, by omega, hext⟩

theorem drive_wroteCopies (n : Nat) (bs : Bytes) (c : Ciphered (Recorded τ) ε δ) :
    WroteCopies c bs (drive writeAll n bs c) := by
  induction n generalizing c with
  | zero => exact ⟨rfl, 0, by omega, extends_nil_iff.mpr ⟨rfl, rfl⟩⟩
  | succ n ih =>
    have hpoll := writeAll_wroteCopies bs c
    rw [drive]
    split
    · rename_i rest c' hw
      rw [hw] at hpoll
      obtain ⟨rfl, m, hm, hext⟩ := hpoll
      exact (ih c').prepend hm hext
    · rename_i a c' hw
      rw [hw] at hpoll
      exact hpoll

theorem accepted_of_flush (h : Sink.flush c = (.ready (.ok ()), c')) :
    c'.inner.accepted = c.stream := by
  have h : c.afterDrain Sink.flush = _ := h
  unfold afterDrain at h
  split at h
  · rename_i d hd
    obtain ⟨hext, hdone, -⟩ := drain_eq hd
    simp only [Prod.mk.injEq] at h
    obtain ⟨-, rfl⟩ := h
    rw [← (extends_nil_iff.mp hext).1, stream_eq_accepted (hdone.mp rfl)]
    exact Recorded.accepted_flush rfl
  · rename_i a d hne hd
    cases h
    exact (hne rfl).elim

/-- One write tells by its answer what it accepted, but for failures with nothing older pending.
Written to the end and flushed, a text is on the transport once, and once more for some of the
disturbances. -/
theorem written_accounts (bs : Bytes) (c : Ciphered (Recorded τ) ε δ) :
    Answers c bs (c.write bs) ∧
      ∀ n c' c'', drive writeAll n bs c = (.done (.ok ()), c') →
        Sink.flush c' = (.ready (.ok ()), c'') →
          ∃ m ≤ Sink.patience c,
            c''.inner.accepted = c.stream ++ (c.encrypt.apply (copies (m + 1) bs)).1 := by
  refine ⟨write_answers bs c, fun n c' c'' hw hf => ?_⟩
  obtain ⟨m, hm, hext⟩ : WroteCopies c bs _ := hw ▸ drive_wroteCopies n bs c
  exact ⟨m, by omega, by rw [accepted_of_flush hf, hext.stream]⟩

/-- A transport that inverts every byte, and is disturbed once before it takes anything. -/
def disturbed : Ciphered (Recorded Script) Unit Unit :=
  { inner := { inner := { writes := [.fail (.ofKind .interrupted)] } },
    encrypt := { state := (), step := fun _ b => (~~~b, ()) },
    decrypt := { state := (), step := fun _ b => (~~~b, ()) } }

theorem written_accounts_disturbed :
    let written := drive writeAll 1 [1, 2] disturbed
    let flushed := Sink.flush written.2
    written.1 = .done (.ok ()) ∧ flushed.1 = .ready (.ok ()) ∧
      flushed.2.inner.accepted = [254, 253, 254, 253] ∧
        ∃ m ≤ Sink.patience disturbed,
          flushed.2.inner.accepted =
            disturbed.stream ++ (disturbed.encrypt.apply (copies (m + 1) [1, 2])).1 := by
  have hw : (drive writeAll 1 [1, 2] disturbed).1 = .done (.ok ()) := by decide +kernel
  have hf : (Sink.flush (drive writeAll 1 [1, 2] disturbed).2).1 = .ready (.ok ()) := by
    decide +kernel
  exact ⟨hw, hf, by decide +kernel,
    (written_accounts [1, 2] disturbed).2 1 _ _ (Prod.ext hw rfl) (Prod.ext hf rfl)⟩

/-- A write that fails can have accepted its text, and offering the text again then encrypts it
again. -/
theorem write_error_accepts :
    (∃ e, (disturbed.write [1, 2]).1 = .ready (.error e)) ∧ disturbed.stream = [] ∧
      (disturbed.write [1, 2]).2.stream = [254, 253] ∧
        (writeAll [1, 2] disturbed).1 = .done (.ok ()) ∧
          (writeAll [1, 2] disturbed).2.stream = [254, 253, 254, 253] :=
  ⟨⟨.ofKind .interrupted, by decide +kernel⟩, by decide +kernel, by decide +kernel,
    by decide +kernel, by decide +kernel⟩

end Ciphered

end PacketWire
