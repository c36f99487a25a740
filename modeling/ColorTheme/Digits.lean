/-! # Numbers from digits

The number that some digits of a base write, the first digit counting most. Long runs are read by
halves, so that few steps handle long numbers. -/
namespace ColorTheme.Digits

def step (base : Nat) (digits : List Nat) : Nat := digits.foldl (fun n d => n * base + d) 0

/-- The number, from the numbers that the two halves write, down to some depth. -/
def halve (base : Nat) : Nat → List Nat → Nat
  | 0, digits => step base digits
  | depth + 1, digits =>
    let k := digits.length / 2
    let low := digits.drop k
    halve base depth (digits.take k) * Nat.pow base low.length + halve base depth low

def value (base : Nat) (digits : List Nat) : Nat := halve base (digits.length.log2 - 5) digits

theorem foldl_step (base n : Nat) (digits : List Nat) :
    digits.foldl (fun n d => n * base + d) n =
      n * Nat.pow base digits.length + step base digits := by
  induction digits generalizing n with
  | nil => simp [step]
  | cons d digits ih =>
    rw [step, List.foldl_cons, List.foldl_cons, ih, ih (0 * base + d)]
    have hp : Nat.pow base (digits.length + 1) = Nat.pow base digits.length * base := rfl
    rw [List.length_cons, hp, Nat.zero_mul, Nat.zero_add, Nat.add_mul, Nat.mul_assoc,
      Nat.mul_comm base, Nat.add_assoc]

theorem step_append (base : Nat) (high low : List Nat) :
    step base (high ++ low) = step base high * Nat.pow base low.length + step base low := by
  rw [step, List.foldl_append, foldl_step]
  rfl

theorem halve_eq (base depth : Nat) (digits : List Nat) :
    halve base depth digits = step base digits := by
  induction depth generalizing digits with
  | zero => rfl
  | succ depth ih =>
    rw [halve, ih, ih, ← step_append, List.take_append_drop]

theorem value_eq (base : Nat) (digits : List Nat) : value base digits = step base digits :=
  halve_eq base _ digits

end ColorTheme.Digits
