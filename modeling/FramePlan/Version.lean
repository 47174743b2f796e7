import FramePlan.Note

/-!
# Version

The library has two parts, its core and the planning of frames, which are versioned on their own
and announce themselves when a program starts to use them.
-/

namespace FramePlan

/-- The version of the core. -/
def coreVersion : String := "0.1.0"

/-- The version of the planning of frames. -/
def version : String := "0.1.0"

/-- What is logged when a program starts to use the library. -/
def startNotes : List Note :=
  [⟨.info, s!"UFG Core v{coreVersion} initialized"⟩,
    ⟨.info, s!"UFG FrameGraph v{version} initialized"⟩]

end FramePlan
