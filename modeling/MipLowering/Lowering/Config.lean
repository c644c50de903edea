import MipLowering.Error
import MipLowering.Scalar
/-!
# Lowering configuration

The parameters of the lowering: the separation `epsilon` that turns a strict relation over
fractional terms into a non-strict one, whether a separation of `1` is used when every term and
the bound are integral, and the largest domain a flow constraint may enumerate.

## Main definitions

* `MipLowering.LoweringConfig`, `MipLowering.LoweringConfig.default`,
  `MipLowering.LoweringConfig.validate`.
-/

namespace MipLowering

/-- Lowering parameters. -/
structure LoweringConfig (α : Type) where
  epsilon : α
  integralSeparation : Bool
  maxFlowDomain : Nat

namespace LoweringConfig

variable {α : Type} [Scalar α]

/-- `epsilon = 1e-6`, integral separation on, flow domains up to `100000` values. -/
def default : LoweringConfig α := ⟨1e-6, true, 100000⟩

/-- A positive finite `epsilon`, then a positive flow domain limit. -/
def validate (c : LoweringConfig α) : Except (ModelError α) Unit :=
  if !(decide (Scalar.zero < c.epsilon) && Scalar.isFinite c.epsilon) then
    .error (.invalidConfig (.epsilon c.epsilon))
  else if c.maxFlowDomain == 0 then .error (.invalidConfig .maxFlowDomain)
  else .ok ()

end LoweringConfig

end MipLowering
