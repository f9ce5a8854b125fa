import PacketWire.Endpoint.Basic

/-!
# Operations over several polls

An operation is run by polling it until it is done. `finish` is its result, if it has one by then.
What every poll of an operation keeps, and comes to, the whole run keeps and comes to, and an
operation with ever less left is done at some time.
-/

namespace PacketWire

variable {φ α ω : Type} {poll : φ → ω → Progress φ α × ω} {f : φ} {w w' : ω} {a : α} {n m : Nat}

/-- The result of an operation that is done within `n` polls. -/
def finish (poll : φ → ω → Progress φ α × ω) (n : Nat) (f : φ) (w : ω) : Option (α × ω) :=
  match drive poll n f w with
  | (.waiting _, _) => none
  | (.done a, w) => some (a, w)

theorem finish_of_waiting {f' : φ} (h : poll f w = (.waiting f', w')) (n : Nat) :
    finish poll (n + 1) f w = finish poll n f' w' := by
  simp only [finish, drive, h]

theorem finish_of_done (h : poll f w = (.done a, w')) (n : Nat) :
    finish poll (n + 1) f w = some (a, w') := by
  simp only [finish, drive, h]

theorem finish_eq_some_iff :
    finish poll n f w = some (a, w') ↔ drive poll n f w = (.done a, w') := by
  unfold finish
  split <;> rename_i h <;> simp [h]

theorem finish_mono {x : α × ω} (h : finish poll n f w = some x) (hle : n ≤ m) :
    finish poll m f w = some x := by
  induction n generalizing f w m with
  | zero => simp [finish, drive] at h
  | succ n ih =>
    obtain ⟨m, rfl⟩ : ∃ m', m = m' + 1 := ⟨m - 1, by omega⟩
    rcases hp : poll f w with ⟨f' | a, w'⟩
    · rw [finish_of_waiting hp] at h ⊢
      exact ih h (by omega)
    · rw [finish_of_done hp] at h ⊢
      exact h

/-- What a poll comes to: `I` holds where the operation waits, and `J` where it is done. -/
def Comes (I : φ → ω → Prop) (J : α → ω → Prop) : Progress φ α × ω → Prop
  | (.waiting f, w) => I f w
  | (.done a, w) => J a w

variable {I : φ → ω → Prop} {J : α → ω → Prop}

/-- What every poll comes to, an operation that is run to its end comes to. -/
theorem finish_comes (step : ∀ f w, I f w → Comes I J (poll f w)) (hI : I f w)
    (h : finish poll n f w = some (a, w')) : J a w' := by
  induction n generalizing f w with
  | zero => simp [finish, drive] at h
  | succ n ih =>
    have hstep := step f w hI
    rcases hp : poll f w with ⟨f' | b, w₁⟩ <;> rw [hp] at hstep
    · rw [finish_of_waiting hp] at h
      exact ih hstep h
    · rw [finish_of_done hp] at h
      cases h
      exact hstep

/-- An operation that has less left whenever it waits, or as much and fewer pauses, is done at some
time. -/
theorem exists_finish (step : ∀ f w, I f w → Comes I J (poll f w)) (left pauses : φ → ω → Nat)
    (waits : ∀ f w f' w', I f w → poll f w = (.waiting f', w') →
      left f' w' < left f w ∨ left f' w' = left f w ∧ pauses f' w' < pauses f w)
    (hI : I f w) : ∃ n, (finish poll n f w).isSome := by
  -- the inner induction is on the pauses, which are bounded anew whenever less is left
  induction hl : left f w using Nat.strongRecOn generalizing f w with
  | ind l ihl =>
    induction hq : pauses f w using Nat.strongRecOn generalizing f w with
    | ind q ihq =>
      have hstep := step f w hI
      rcases hp : poll f w with ⟨f' | b, w'⟩ <;> rw [hp] at hstep
      · rcases waits f w f' w' hI hp with hless | ⟨hsame, hless⟩
        · obtain ⟨n, hn⟩ := ihl _ (hl ▸ hless) hstep rfl
          exact ⟨n + 1, by rwa [finish_of_waiting hp]⟩
        · obtain ⟨n, hn⟩ := ihq _ (hq ▸ hless) hstep (hsame.trans hl) rfl
          exact ⟨n + 1, by rwa [finish_of_waiting hp]⟩
      · exact ⟨1, by rw [finish_of_done hp]; rfl⟩

/-- What every poll of a waiting operation keeps, all of them keep. -/
theorem drive_induction {I : Progress φ α × ω → Prop}
    (hpoll : ∀ f w, I (.waiting f, w) → I (poll f w)) (n : Nat) {f : φ} {w : ω}
    (h : I (.waiting f, w)) : I (drive poll n f w) := by
  induction n generalizing f w with
  | zero => exact h
  | succ n ih =>
    have hnext := hpoll f w h
    unfold drive
    split <;> rename_i heq <;> rw [heq] at hnext
    · exact ih hnext
    · exact hnext

theorem drive_map {ω' : Type} {poll' : φ → ω' → Progress φ α × ω'} {g : ω → ω'}
    (hpoll : ∀ f w, poll' f (g w) = Prod.map id g (poll f w)) (n : Nat) (f : φ) (w : ω) :
    drive poll' n f (g w) = Prod.map id g (drive poll n f w) := by
  induction n generalizing f w with
  | zero => rfl
  | succ n ih =>
    simp only [drive, hpoll]
    rcases poll f w with ⟨_ | _, w'⟩
    · exact ih _ w'
    · rfl

end PacketWire
