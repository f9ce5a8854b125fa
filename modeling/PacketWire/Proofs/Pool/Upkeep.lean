import Mathlib.Data.List.Induction
import PacketWire.Proofs.Pool.Ledger

/-!
# The upkeep of a pool

What a pool keeps is `Tidy`: free buffers hold nothing and are no larger than what may be kept. So
whatever was written to a buffer while it was out, whoever gets it next finds zeros. A pool stays
within its limit and refuses exactly at the limit, and it never holds more buffers, free and out
together, than it began with or had out at once.
-/

namespace PacketWire

namespace Pool

/-- Free buffers hold nothing and may be kept. -/
def Tidy (p : Pool) : Prop := ∀ b ∈ p.free, b.bytes = [] ∧ b.capacity ≤ p.maxPooledSize

/-- No more buffers are out than there may be. -/
def Within (p : Pool) : Prop := p.maxOutstanding ≠ 0 → p.outstanding ≤ p.maxOutstanding

/-- All buffers of a pool, free or out. -/
def total (p : Pool) : Nat := p.available + p.outstanding

theorem tidy_withLimits (preallocated maxPooledSize maxOutstanding : Nat) :
    (withLimits preallocated maxPooledSize maxOutstanding).Tidy := by
  intro b hb
  obtain rfl := (List.mem_replicate.mp hb).2
  exact ⟨rfl, Nat.min_le_right ..⟩

variable {p q : Pool} {n : Nat} {b : Buffer}

/-! ## Handing out -/

theorem acquire_eq_error_iff {e : WireError} :
    p.acquire n = .error e ↔ p.exhausted ∧ e = .poolExhausted p.outstanding := by
  unfold acquire
  by_cases h : p.exhausted
  · simp [h, eq_comm]
  · cases p.free <;> simp [h]

/-- The buffer is a new one if none is free, and else the first free one. -/
theorem acquire_cases (h : p.acquire n = .ok (b, q)) :
    ¬ p.exhausted ∧ q.outstanding = p.outstanding + 1 ∧ q.maxOutstanding = p.maxOutstanding ∧
      q.maxPooledSize = p.maxPooledSize ∧
      (p.free = [] ∧ q.free = [] ∧ b = ({} : Buffer).resize n ∨
        ∃ a, p.free = a :: q.free ∧ b = a.resize n) := by
  unfold acquire at h
  split at h
  · cases h
  · rename_i hnot
    split at h <;> rename_i hfree <;> cases h
    · exact ⟨hnot, rfl, rfl, rfl, .inl ⟨hfree, hfree, rfl⟩⟩
    · exact ⟨hnot, rfl, rfl, rfl, .inr ⟨_, hfree, rfl⟩⟩

theorem zeros_resize (b : Buffer) (h : b.bytes = []) (n : Nat) :
    (b.resize n).bytes = Bytes.zeros n := by
  simp [Buffer.resize, h]

theorem Tidy.zeros (hp : p.Tidy) (h : p.acquire n = .ok (b, q)) : b.bytes = Bytes.zeros n := by
  obtain ⟨-, -, -, -, ⟨-, -, rfl⟩ | ⟨a, hfree, rfl⟩⟩ := acquire_cases h
  · exact zeros_resize _ rfl n
  · exact zeros_resize _ (hp a (by simp [hfree])).1 n

theorem Tidy.acquire (hp : p.Tidy) (h : p.acquire n = .ok (b, q)) : q.Tidy := by
  obtain ⟨-, -, -, hsize, ⟨-, hfree, -⟩ | ⟨a, hfree, -⟩⟩ := acquire_cases h
  · intro b hb
    simp [hfree] at hb
  · intro b hb
    rw [hsize]
    exact hp b (by simp [hfree, hb])

theorem Within.acquire (h : p.acquire n = .ok (b, q)) : q.Within := by
  obtain ⟨hnot, hout, hmax, -, -⟩ := acquire_cases h
  intro hlimit
  rw [hmax] at hlimit
  have hbelow : ¬ p.maxOutstanding ≤ p.outstanding := fun hle => hnot ⟨hlimit, hle⟩
  omega

/-- A buffer is added only when none is free. -/
theorem total_acquire (h : p.acquire n = .ok (b, q)) :
    q.total = p.total ∨ q.total = q.outstanding := by
  obtain ⟨-, hout, -, -, ⟨-, hfree, -⟩ | ⟨a, hfree, -⟩⟩ := acquire_cases h
  · right
    simp [total, available, hfree]
  · left
    simp only [total, available, hfree, hout, List.length_cons]
    omega

/-- A buffer is emptied before it is kept, and one that has grown too large is not. -/
theorem Tidy.release (hp : p.Tidy) (b : Buffer) : (p.release b).Tidy := by
  intro a ha
  unfold Pool.release at ha
  split at ha
  · rename_i hsmall
    rcases List.mem_cons.mp ha with rfl | ha
    · exact ⟨rfl, hsmall⟩
    · exact hp a ha
  · exact hp a ha

theorem Within.release (hp : p.Within) (b : Buffer) : (p.release b).Within := by
  intro hlimit
  exact Nat.le_trans (Nat.sub_le ..) (hp hlimit)

theorem total_release_le (h : 0 < p.outstanding) (b : Buffer) : (p.release b).total ≤ p.total := by
  unfold total available Pool.release
  split
  · simp only [List.length_cons]
    omega
  · simp only
    omega

/-! ## Along a path -/

theorem Path.tidy {d : Int} (h : Path p d q) (hp : p.Tidy) : q.Tidy := by
  induction h with
  | refl => exact hp
  | acquire ha _ ih => exact ih (hp.acquire ha)
  | @release p s b d _ _ ih => exact ih (hp.release b)

theorem Path.within {d : Int} (h : Path p d q) (hp : p.Within) : q.Within := by
  induction h with
  | refl => exact hp
  | acquire ha _ ih => exact ih (Within.acquire ha)
  | @release p s b d _ _ ih => exact ih (hp.release b)

theorem Path.maxPooledSize {d : Int} (h : Path p d q) : q.maxPooledSize = p.maxPooledSize := by
  induction h with
  | refl => rfl
  | acquire ha _ ih => exact ih.trans (acquire_cases ha).2.2.2.1
  | release _ _ ih => exact ih

end Pool

namespace Reserves

variable {r r' : Reserves} {n : Nat}

theorem pool_of_refusal {e : WireError} (h : r.acquire n = (.error e, r')) :
    r.pool.acquire n = .error e ∧ r'.pool = r.pool := by
  unfold acquire at h
  split at h
  · cases h
  · rename_i hp
    cases h
    exact ⟨hp, rfl⟩

end Reserves

namespace Ledger

variable {σ : Type} [Source σ] {l : Ledger}

def pool (l : Ledger) : Pool := l.reserves.pool

/-! ## One operation -/

theorem step_acquire_of_exhausted (h : l.pool.exhausted) (n : Nat) :
    (l.step (.acquire n : Op σ)).1 = .failed (.poolExhausted l.outstanding) ∧
      (l.step (.acquire n : Op σ)).2.pool = l.pool ∧
      (l.step (.acquire n : Op σ)).2.buffers = l.buffers := by
  have hrefused : l.reserves.pool.acquire n = .error (.poolExhausted l.outstanding) :=
    Pool.acquire_eq_error_iff.mpr ⟨h, rfl⟩
  unfold step
  simp only
  split <;> rename_i ha
  · rw [Reserves.pool_of_acquire ha] at hrefused
    cases hrefused
  · obtain ⟨herror, hpool⟩ := Reserves.pool_of_refusal ha
    obtain rfl := Except.error.inj (herror.symm.trans hrefused)
    exact ⟨rfl, hpool, rfl⟩

theorem step_acquire_of_not_exhausted (h : ¬ l.pool.exhausted) (htidy : l.pool.Tidy) (n : Nat) :
    (l.step (.acquire n : Op σ)).1 = .done ∧
      (l.step (.acquire n : Op σ)).2.outstanding = l.outstanding + 1 ∧
      ∃ b, b.bytes = Bytes.zeros n ∧ (l.step (.acquire n : Op σ)).2.buffers = b :: l.buffers := by
  unfold step
  simp only
  split <;> rename_i ha
  · have hacquired := Reserves.pool_of_acquire ha
    exact ⟨rfl, (Pool.acquire_cases hacquired).2.1, _, htidy.zeros hacquired, rfl⟩
  · exact absurd (Pool.acquire_eq_error_iff.mp (Reserves.pool_of_refusal ha).1).1 h

/-- Whether a caller does nothing but take a buffer, change it or give it back. -/
def Op.isDirect : Op σ → Bool
  | .acquire _ | .edit .. | .giveBack _ => true
  | _ => false

/-- What such a caller can do to a pool. -/
inductive Direct (l : Ledger) : Ledger → Prop where
  | rests (l' : Ledger) (packets : l'.packets = l.packets) (reads : l'.reads = l.reads)
      (pool : l'.pool = l.pool) : Direct l l'
  | takes (l' : Ledger) (n : Nat) (b : Buffer) (packets : l'.packets = l.packets)
      (reads : l'.reads = l.reads) (pool : l.pool.acquire n = .ok (b, l'.pool)) : Direct l l'
  | returns (l' : Ledger) (b : Buffer) (packets : l'.packets = l.packets)
      (reads : l'.reads = l.reads) (mem : b ∈ l.buffers) (pool : l'.pool = l.pool.release b) :
      Direct l l'

theorem direct_step {op : Op σ} (h : op.isDirect = true) : l.Direct (l.step op).2 := by
  cases op with
  | acquire n =>
    unfold step
    simp only
    split <;> rename_i ha
    · exact .takes _ n _ rfl rfl (Reserves.pool_of_acquire ha)
    · exact .rests _ rfl rfl (Reserves.pool_of_refusal ha).2
  | edit i change => exact .rests _ rfl rfl rfl
  | giveBack i =>
    show l.Direct (l.giveBack i)
    unfold giveBack
    split
    · exact .rests _ rfl rfl rfl
    · rename_i b hb
      exact .returns _ b rfl rfl (List.mem_of_getElem? hb) rfl
  | _ => cases h

/-- Taking and giving back never leaves more buffers than there were or than are out. -/
theorem total_step_le (hbalanced : l.Balanced) {op : Op σ} (h : op.isDirect = true) :
    (l.step op).2.pool.total ≤ max l.pool.total (l.step op).2.outstanding := by
  have hdirect := l.direct_step h
  generalize (l.step op).2 = l' at hdirect
  cases hdirect with
  | rests _ _ hpool => rw [hpool]; exact Nat.le_max_left ..
  | takes n b _ _ hpool =>
    rcases Pool.total_acquire hpool with heq | heq <;> rw [heq]
    · exact Nat.le_max_left ..
    · exact Nat.le_max_right ..
  | returns b _ _ hmem hpool =>
    have hlive : 0 < l.pool.outstanding := by
      have hpos := List.length_pos_of_mem hmem
      have hout : l.pool.outstanding = l.live := hbalanced
      simp only [hout, live]
      omega
    rw [hpool]
    exact Nat.le_trans (Pool.total_release_le hlive b) (Nat.le_max_left ..)

theorem run_concat (l : Ledger) (ops : List (Op σ)) (op : Op σ) :
    l.run (ops ++ [op]) = ((l.run ops).step op).2 := by
  simp [run]

theorem path_run (h : l.Balanced) (ops : List (Op σ)) :
    ∃ d, l.pool.Path d (l.run ops).pool := by
  induction ops generalizing l with
  | nil => exact ⟨0, .refl _⟩
  | cons op ops ih =>
    have hmoves := moves_step h op
    obtain ⟨d, hpath⟩ := ih (h.of_moves hmoves)
    exact ⟨_, Pool.Path.trans hmoves hpath⟩

theorem held_run {ops : List (Op σ)} (hops : ∀ op ∈ ops, op.isDirect = true)
    (hpackets : l.packets = []) (hreads : l.reads = []) :
    (l.run ops).packets = [] ∧ (l.run ops).reads = [] := by
  induction ops generalizing l with
  | nil => exact ⟨hpackets, hreads⟩
  | cons op ops ih =>
    have hstep : (l.step op).2.packets = l.packets ∧ (l.step op).2.reads = l.reads := by
      have hdirect := l.direct_step (hops op (.head _))
      generalize (l.step op).2 = l' at hdirect
      cases hdirect with
      | rests packets reads => exact ⟨packets, reads⟩
      | takes _ _ packets reads => exact ⟨packets, reads⟩
      | returns _ packets reads => exact ⟨packets, reads⟩
    exact ih (l := (l.step op).2) (fun op hop => hops op (.tail _ hop))
      (hstep.1.trans hpackets) (hstep.2.trans hreads)

theorem total_run_le (hbalanced : l.Balanced) {ops : List (Op σ)}
    (hops : ∀ op ∈ ops, op.isDirect = true) :
    ∃ before, before <+: ops ∧
      (l.run ops).pool.total ≤ max l.pool.total (l.run before).outstanding := by
  induction ops using List.reverseRecOn with
  | nil => exact ⟨[], List.prefix_rfl, Nat.le_max_left ..⟩
  | append_singleton ops op ih =>
    obtain ⟨before, hbefore, hle⟩ := ih fun op hop => hops op (List.mem_append_left _ hop)
    have hstep := total_step_le (hbalanced.run ops) (hops op (by simp))
    rw [← run_concat] at hstep
    rcases Nat.le_total (l.run (ops ++ [op])).outstanding (l.run ops).pool.total with hlow | hhigh
    · refine ⟨before, hbefore.trans (List.prefix_append ..), ?_⟩
      omega
    · refine ⟨ops ++ [op], List.prefix_rfl, ?_⟩
      omega

/-- After every run on a fresh pool, what is free is empty and not too large, a buffer is refused
exactly at the limit, and one that is handed out holds zeros. If callers only take and give back,
what is out is what they hold, and buffers never outnumber the first ones and those that were out at
once. -/
theorem upkeep_run (preallocated maxPooledSize maxOutstanding : Nat) (metrics : Metrics)
    (ops : List (Op σ)) :
    let start := opened preallocated maxPooledSize maxOutstanding metrics
    let l := start.run ops
    (∀ b ∈ l.pool.free, b.bytes = [] ∧ b.capacity ≤ maxPooledSize) ∧
    (0 < maxOutstanding → l.outstanding ≤ maxOutstanding) ∧
    (∀ n, 0 < maxOutstanding ∧ l.outstanding = maxOutstanding →
      (l.step (.acquire n : Op σ)).1 = .failed (.poolExhausted l.outstanding) ∧
        (l.step (.acquire n : Op σ)).2.pool = l.pool ∧
        (l.step (.acquire n : Op σ)).2.buffers = l.buffers) ∧
    (∀ n, ¬ (0 < maxOutstanding ∧ l.outstanding = maxOutstanding) →
      (l.step (.acquire n : Op σ)).1 = .done ∧
        (l.step (.acquire n : Op σ)).2.outstanding = l.outstanding + 1 ∧
        ∃ b, b.bytes = Bytes.zeros n ∧
          (l.step (.acquire n : Op σ)).2.buffers = b :: l.buffers) ∧
    ((∀ op ∈ ops, op.isDirect = true) →
      l.outstanding = l.buffers.length ∧
        ∃ before, before <+: ops ∧
          l.pool.available + l.outstanding ≤ max preallocated (start.run before).outstanding) := by
  intro start l
  have hstart : start.Balanced := rfl
  obtain ⟨d, hpath⟩ := path_run hstart ops
  have htidy : l.pool.Tidy :=
    hpath.tidy (Pool.tidy_withLimits preallocated maxPooledSize maxOutstanding)
  have hwithin : l.pool.Within := hpath.within fun _ => Nat.zero_le _
  have hsize : l.pool.maxPooledSize = maxPooledSize := hpath.maxPooledSize
  have hmax : l.pool.maxOutstanding = maxOutstanding := hpath.maxOutstanding
  have hlimit : 0 < maxOutstanding → l.outstanding ≤ maxOutstanding := fun hpos =>
    hmax ▸ hwithin (by omega)
  have hexhausted : l.pool.exhausted ↔ 0 < maxOutstanding ∧ l.outstanding = maxOutstanding := by
    have hout : l.pool.outstanding = l.outstanding := rfl
    unfold Pool.exhausted
    rw [hmax, hout]
    omega
  refine ⟨fun b hb => hsize ▸ htidy b hb, hlimit, fun n hn => ?_, fun n hn => ?_, fun hops => ?_⟩
  · exact step_acquire_of_exhausted (hexhausted.mpr hn) n
  · exact step_acquire_of_not_exhausted (fun h => hn (hexhausted.mp h)) htidy n
  · obtain ⟨hpackets, hreads⟩ := held_run (l := start) hops rfl rfl
    have hlive : l.outstanding = l.live := hstart.run ops
    obtain ⟨before, hbefore, hle⟩ := total_run_le hstart hops
    have htotal : start.pool.total = preallocated := by
      show (List.replicate preallocated _).length + 0 = preallocated
      simp
    rw [htotal] at hle
    refine ⟨?_, before, hbefore, hle⟩
    simpa [live, l, hpackets, hreads] using hlive

/-- Of two buffers that were filled, the one that was grown is too large to be kept. -/
theorem upkeep_run_filled :
    let ops : List (Op Script) :=
      [.acquire 3, .edit 0 (·.overwrite 0 [1, 2]), .acquire 2,
        .edit 0 (fun b => { b with bytes := b.bytes ++ [7], capacity := 9 }), .giveBack 0,
        .giveBack 0]
    let start := opened 0 8 2 {}
    let l := start.run ops
    let full := start.run (ops ++ [.acquire 3, .acquire 1])
    (l.pool.available = 1 ∧ ∃ before, before <+: ops ∧
        l.pool.available + l.outstanding ≤ max 0 (start.run before).outstanding) ∧
      (∃ b, b.bytes = Bytes.zeros 3 ∧
        (l.step (.acquire 3 : Op Script)).2.buffers = b :: l.buffers) ∧
      (full.step (.acquire 1 : Op Script)).1 = .failed (.poolExhausted 2) := by
  intro ops start l full
  obtain ⟨-, -, -, hgranted, hdirect⟩ := upkeep_run 0 8 2 {} ops
  obtain ⟨-, -, hrefused, -, -⟩ := upkeep_run 0 8 2 {} (ops ++ [.acquire 3, .acquire 1])
  have hfull : full.outstanding = 2 := by decide
  exact ⟨⟨by decide, (hdirect (by decide)).2⟩, (hgranted 3 (by decide)).2.2,
    hfull ▸ (hrefused 1 ⟨by decide, hfull⟩).1⟩

end Ledger

end PacketWire
