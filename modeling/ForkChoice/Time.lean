import ForkChoice.Fault

/-!
# Times and durations

Both count nanoseconds, and both have a range: a time has its whole seconds in 64 signed bits, a
duration in 64 unsigned ones.

* `Time.add`, `Time.sub`: the shifted time, or a fault when it is not representable.
* `Time.before?`: the earlier time, or nothing.
* `Time.gap`: the distance between two times, which is always a duration.
-/

namespace ForkChoice

def nanosPerSecond : Nat := 1000000000

/-- A length of time in nanoseconds. -/
structure Duration where
  ns : Nat
  fits : ns < 0x10000000000000000 * nanosPerSecond := by decide
  deriving DecidableEq

namespace Duration

theorem ext {a b : Duration} (h : a.ns = b.ns) : a = b := by
  cases a; cases b; cases h; rfl

instance : LE Duration := ⟨fun a b => a.ns ≤ b.ns⟩
instance : LT Duration := ⟨fun a b => a.ns < b.ns⟩
instance (a b : Duration) : Decidable (a ≤ b) := Nat.decLe a.ns b.ns
instance (a b : Duration) : Decidable (a < b) := Nat.decLt a.ns b.ns

def zero : Duration := ⟨0, by decide⟩

def seconds (d : Duration) : Nat := d.ns / nanosPerSecond

/-- The duration of so many nanoseconds, if there is one. -/
def ofNanos? (ns : Nat) : Option Duration :=
  if h : ns < 0x10000000000000000 * nanosPerSecond then some ⟨ns, h⟩ else none

/-- Whole seconds that fit in 64 bits. -/
def ofSeconds (s : Nat) (h : s < 0x10000000000000000 := by decide) : Duration :=
  ⟨s * nanosPerSecond, Nat.mul_lt_mul_of_pos_right h (by decide)⟩

theorem seconds_lt (d : Duration) : d.seconds < 0x10000000000000000 :=
  Nat.div_lt_of_lt_mul (by rw [Nat.mul_comm]; exact d.fits)

end Duration

/-- A point in time, in nanoseconds since the epoch. -/
structure Time where
  ns : Int
  lower : -(0x8000000000000000 * nanosPerSecond) ≤ ns := by decide
  upper : ns < 0x8000000000000000 * nanosPerSecond := by decide
  deriving DecidableEq

namespace Time

theorem ext {a b : Time} (h : a.ns = b.ns) : a = b := by
  cases a; cases b; cases h; rfl

instance : LE Time := ⟨fun a b => a.ns ≤ b.ns⟩
instance : LT Time := ⟨fun a b => a.ns < b.ns⟩
instance (a b : Time) : Decidable (a ≤ b) := Int.decLe a.ns b.ns
instance (a b : Time) : Decidable (a < b) := Int.decLt a.ns b.ns
instance : Ord Time := ⟨fun a b => compare a.ns b.ns⟩

/-- The epoch stands for a moment that was never recorded. -/
def epoch : Time := ⟨0, by decide, by decide⟩

/-- The time so many nanoseconds from the epoch, if it is representable. -/
def ofNanos? (ns : Int) : Option Time :=
  if h : -(0x8000000000000000 * nanosPerSecond) ≤ ns ∧ ns < 0x8000000000000000 * nanosPerSecond then some ⟨ns, h.1, h.2⟩ else none

/-- The later time, if it is representable, however long the duration is. -/
def later? (t : Time) (d : Duration) : Option Time := ofNanos? (t.ns + d.ns)

/-- The earlier time, if it is representable, however long the duration is. -/
def before? (t : Time) (d : Duration) : Option Time := ofNanos? (t.ns - d.ns)

def add (t : Time) (d : Duration) : Except Fault Time :=
  match t.later? d with
  | some u => .ok u
  | none => .error .timeOverflow

def sub (t : Time) (d : Duration) : Except Fault Time :=
  match t.before? d with
  | some u => .ok u
  | none => .error .timeUnderflow

def gap (a b : Time) : Duration where
  ns := (a.ns - b.ns).natAbs
  fits := by
    have ha := a.lower
    have ha' := a.upper
    have hb := b.lower
    have hb' := b.upper
    simp only [nanosPerSecond] at *
    omega

/-- The time some nanoseconds later, or earlier when they are negative. -/
def shift (t : Time) (nanos : Int) : Except Fault Time :=
  match ofNanos? (t.ns + nanos) with
  | some u => .ok u
  | none => .error (if 0 ≤ nanos then .timeOverflow else .timeUnderflow)

end Time

end ForkChoice
