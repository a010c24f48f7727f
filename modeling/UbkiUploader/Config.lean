import UbkiUploader.Lib.Text

/-!
# Configuration (app/config.py)

The settings the modelled code reads, with the defaults of the dataclass.
-/

namespace UbkiUploader

structure Config where
  retryCap : Nat := 5
  maxLineBytes : Nat := 2 * 1024 * 1024
  networkAbortThreshold : Nat := 3
  ubkiConcurrency : Nat := 8
  /-- dir.15 "no collateral", injected when a deal lacks it -/
  dealVidobes : Text := Text.lit "90"

end UbkiUploader
