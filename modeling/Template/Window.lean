import Template.Position
import Template.Violation

namespace Template

/-- What characters can be pulled out of.  The end of the text is handed out as `none`. -/
class Window (ω : Type) where
  read : ω → Option Char × ω
  takeBack : ω → Nat → Except Violation ω
  position : ω → Position × ω
  unread : ω → Nat

end Template
