import PacketWire.Pool

/-!
# Paths of a pool

`Path p d q` says that pool `p` becomes `q` by handing buffers out and taking them back one at a
time, `d` more out at the end than at the start, and that no buffer is ever taken back while none
is out. The count of buffers out moves by exactly `d` along a path, and the limits stay.
-/

namespace PacketWire

namespace Pool

inductive Path : Pool → Int → Pool → Prop where
  | refl (p : Pool) : Path p 0 p
  | acquire {p q s : Pool} {n : Nat} {b : Buffer} {d : Int} :
      p.acquire n = .ok (b, q) → Path q d s → Path p (1 + d) s
  | release {p s : Pool} {b : Buffer} {d : Int} :
      0 < p.outstanding → Path (p.release b) d s → Path p (-1 + d) s

theorem Path.trans {p q s : Pool} {d e : Int} (h : Path p d q) (h' : Path q e s) :
    Path p (d + e) s := by
  induction h with
  | refl => simpa using h'
  | acquire ha _ ih => rw [Int.add_assoc]; exact .acquire ha (ih h')
  | release hp _ ih => rw [Int.add_assoc]; exact .release hp (ih h')

theorem Path.of_acquire {p q : Pool} {n : Nat} {b : Buffer} (h : p.acquire n = .ok (b, q)) :
    Path p 1 q := by
  simpa using Path.acquire h (.refl q)

theorem Path.of_release {p : Pool} (b : Buffer) (h : 0 < p.outstanding) :
    Path p (-1) (p.release b) := by
  simpa using Path.release h (.refl (p.release b))

/-- What handing a buffer out does: it is as long as asked, and counted. -/
theorem of_acquire_eq_ok {p q : Pool} {n : Nat} {b : Buffer} (h : p.acquire n = .ok (b, q)) :
    b.length = n ∧ q.outstanding = p.outstanding + 1 ∧ q.maxOutstanding = p.maxOutstanding := by
  have hlen (b : Buffer) : (b.resize n).length = n := by
    simp only [Buffer.resize, Buffer.length, List.length_append, List.length_take,
      Bytes.length_zeros]
    omega
  unfold acquire at h
  split at h
  · cases h
  · split at h
    · cases h; exact ⟨hlen _, rfl, rfl⟩
    · cases h; exact ⟨hlen _, rfl, rfl⟩

theorem acquire_of_not_exhausted {p : Pool} (h : ¬ p.exhausted) (n : Nat) :
    ∃ b q, p.acquire n = .ok (b, q) := by
  unfold acquire
  rw [if_neg h]
  split
  · exact ⟨_, _, rfl⟩
  · exact ⟨_, _, rfl⟩

theorem not_exhausted_of_no_limit {p : Pool} (h : p.maxOutstanding = 0) : ¬ p.exhausted :=
  fun hlimit => hlimit.1 h

theorem Path.outstanding {p q : Pool} {d : Int} (h : Path p d q) :
    (q.outstanding : Int) = p.outstanding + d := by
  induction h with
  | refl => simp
  | acquire ha _ ih =>
    have := (of_acquire_eq_ok ha).2.1
    omega
  | release hp _ ih =>
    simp only [Pool.release] at ih
    omega

theorem Path.maxOutstanding {p q : Pool} {d : Int} (h : Path p d q) :
    q.maxOutstanding = p.maxOutstanding := by
  induction h with
  | refl => rfl
  | acquire ha _ ih => rw [ih, (of_acquire_eq_ok ha).2.2]
  | release _ _ ih => rw [ih]; rfl

end Pool

namespace Reserves

/-- Whether buffers are never refused. -/
def Unlimited (r : Reserves) : Prop := r.pool.maxOutstanding = 0

/-- The pool of `r` becomes that of `r'` along a path. -/
def Path (r : Reserves) (d : Int) (r' : Reserves) : Prop := r.pool.Path d r'.pool

theorem Path.refl (r : Reserves) : Path r 0 r := Pool.Path.refl r.pool

theorem Path.trans {r r' r'' : Reserves} {d e : Int} (h : Path r d r') (h' : Path r' e r'') :
    Path r (d + e) r'' := Pool.Path.trans h h'

theorem Path.cast {r r' : Reserves} {d e : Int} (h : Path r d r') (hd : d = e) : Path r e r' :=
  hd ▸ h

theorem Path.unlimited {r r' : Reserves} {d : Int} (h : Path r d r') (hr : r.Unlimited) :
    r'.Unlimited := (Pool.Path.maxOutstanding h).trans hr

theorem Path.release {r : Reserves} (b : Buffer) (h : 0 < r.pool.outstanding) :
    Path r (-1) (r.release b) := Pool.Path.of_release b h

theorem Path.count {r r' : Reserves} {d : Int} (h : Path r d r') (event : Metrics → Metrics) :
    Path r d (r'.count event) := h

theorem pool_of_acquire {r r' : Reserves} {n : Nat} {b : Buffer}
    (h : r.acquire n = (.ok b, r')) : r.pool.acquire n = .ok (b, r'.pool) := by
  unfold acquire at h
  split at h
  · rename_i hp
    cases h
    exact hp
  · cases h

theorem Path.of_acquire {r r' : Reserves} {n : Nat} {b : Buffer}
    (h : r.acquire n = (.ok b, r')) : Path r 1 r' := Pool.Path.of_acquire (pool_of_acquire h)

theorem Path.of_refusal {r r' : Reserves} {n : Nat} {e : WireError}
    (h : r.acquire n = (.error e, r')) : Path r 0 r' := by
  unfold acquire at h
  split at h
  · cases h
  · cases h
    exact Pool.Path.refl r.pool

theorem error_of_acquire {r r' : Reserves} {n : Nat} {e : WireError}
    (h : r.acquire n = (.error e, r')) : ∃ m, e = .poolExhausted m := by
  unfold acquire at h
  split at h
  · cases h
  · rename_i hp
    cases h
    unfold Pool.acquire at hp
    split at hp
    · cases hp
      exact ⟨_, rfl⟩
    · split at hp <;> cases hp

theorem length_of_acquire {r r' : Reserves} {n : Nat} {b : Buffer}
    (h : r.acquire n = (.ok b, r')) : b.length = n := (Pool.of_acquire_eq_ok (pool_of_acquire h)).1

theorem metrics_of_acquire {r r' : Reserves} {n : Nat} {b : Buffer}
    (h : r.acquire n = (.ok b, r')) : r'.metrics = r.metrics := by
  unfold acquire at h
  split at h <;> cases h
  rfl

theorem acquire_of_not_exhausted {r : Reserves} (h : ¬ r.pool.exhausted) (n : Nat) :
    ∃ b r', r.acquire n = (.ok b, r') := by
  obtain ⟨b, pool, h⟩ := Pool.acquire_of_not_exhausted h n
  exact ⟨b, { r with pool }, by simp [Reserves.acquire, h]⟩

theorem acquire_of_exhausted {r : Reserves} (h : r.pool.exhausted) (n : Nat) :
    (r.acquire n).1 = .error (.poolExhausted r.pool.outstanding) := by
  simp [acquire, Pool.acquire, h]

theorem Unlimited.acquire {r : Reserves} (hr : r.Unlimited) (n : Nat) :
    ∃ b r', r.acquire n = (.ok b, r') :=
  acquire_of_not_exhausted (Pool.not_exhausted_of_no_limit hr) n

end Reserves

end PacketWire
