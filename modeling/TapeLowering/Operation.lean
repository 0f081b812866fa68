import TapeLowering.Routine

/-!
# The operation library

The operations that can be called by name, as data: an operation together with the slots it works
on. The type is general in what a slot is given by, since a script names its slots, and which cells
they are is known only once the names are resolved.
-/

namespace TapeLowering

/-- An operation that puts a result into one cell from the values of two others. -/
inductive BinaryOperation where
  | add | sub | mul
  | and | or
  | lt | le | gt | ge
  deriving Repr, DecidableEq

/-- The routine of an operation on two cells. -/
def BinaryOperation.routine : BinaryOperation → (result left right : Slot) → Routine
  | add => .add
  | sub => .sub
  | mul => .mul
  | and => .and
  | or => .or
  | lt => .lt
  | le => .le
  | gt => .gt
  | ge => .ge

/-- An operation on cells given by `σ`. -/
inductive Operation (σ : Type) where
  /-- Sets a cell to zero. -/
  | clear (cell : σ)
  /-- Adds the summand to the accumulator, and sets the summand to zero. -/
  | absorb (accumulator summand : σ)
  /-- Copies the source into the destination. -/
  | copy (destination source : σ)
  /-- Puts the negation of the condition into the result. -/
  | not (result condition : σ)
  /-- Takes one from both cells for as long as neither is zero. -/
  | cancel (left right : σ)
  /-- Puts the result of an operation on two cells into a third. -/
  | binary (operation : BinaryOperation) (result left right : σ)
  /-- Puts the quotient and the remainder of two cells into two others. -/
  | divMod (quotient remainder dividend divisor : σ)
  deriving Repr, DecidableEq

namespace Operation

/-- Looks up every cell of an operation. -/
def mapM {σ τ : Type} {m : Type → Type} [Monad m] (f : σ → m τ) : Operation σ → m (Operation τ)
  | clear x => clear <$> f x
  | absorb x y => absorb <$> f x <*> f y
  | copy x y => copy <$> f x <*> f y
  | not x y => not <$> f x <*> f y
  | cancel x y => cancel <$> f x <*> f y
  | binary o x y z => binary o <$> f x <*> f y <*> f z
  | divMod x y z w => divMod <$> f x <*> f y <*> f z <*> f w

/-- The routine of an operation. -/
def routine : Operation Slot → Routine
  | clear cell => .reset cell
  | absorb accumulator summand => .transfer summand accumulator
  | copy destination source => .copy destination source
  | not result condition => .not result condition
  | cancel left right => .cancel left right
  | binary operation result left right => operation.routine result left right
  | divMod quotient remainder dividend divisor => .divMod quotient remainder dividend divisor

end Operation

end TapeLowering
