import Rollup.MaxScan.Basic

/-!
# Choice of a scan kernel

Which shape of the running maximum a process uses. The choice depends on the vector registers the
machine has and on a stated preference, and it is made once: the first request binds, and later ones
get what is bound.
-/

namespace Rollup

/-- The shapes of the scan by the registers they need. -/
inductive Kernel where
  | scalar | avx2 | avx512
deriving DecidableEq, Repr

/-- Which kernels may be chosen. -/
inductive KernelPreference where
  /-- The widest kernel the machine has registers for. -/
  | auto
  /-- No vector registers. -/
  | scalar
deriving DecidableEq, Repr, Inhabited

structure VectorSupport where
  avx2 : Bool
  avx512f : Bool
deriving DecidableEq, Repr

namespace VectorSupport

def none : VectorSupport := ⟨false, false⟩

def hasWideVectors (support : VectorSupport) : Bool := support.avx2 || support.avx512f

def text (support : VectorSupport) : String :=
  let flag : Bool → String := fun b => if b then "true" else "false"
  "avx2=" ++ flag support.avx2 ++ " avx512f=" ++ flag support.avx512f

end VectorSupport

def KernelPreference.name : KernelPreference → String
  | auto => "auto"
  | scalar => "scalar"

namespace Kernel

def name : Kernel → String
  | scalar => "scalar"
  | avx2 => "avx2"
  | avx512 => "avx512f"

/-- The kernel for a machine. The kernel `avx512` has no scan of its own, so it is never chosen. -/
def select (support : VectorSupport) : KernelPreference → Kernel
  | .scalar => scalar
  | .auto => if support.avx2 then avx2 else scalar

/-- Folds a run into a running maximum; `lead` is the number of values before the first aligned one,
which only the wide kernel looks at. -/
def scan (kernel : Kernel) (lead : Nat) (acc : Binary64) (values : List Binary64) : Binary64 :=
  match kernel with
  | avx2 => MaxScan.wide lead acc values
  | scalar | avx512 => MaxScan.lanes acc values

/-- The kernel in use after a request: the one that is bound already, else the one chosen now. -/
def bind (bound : Option Kernel) (support : VectorSupport) (preference : KernelPreference) :
    Kernel :=
  bound.getD (select support preference)

end Kernel
end Rollup
