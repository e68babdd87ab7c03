namespace Template.Text

def isBlank (c : Char) : Bool := c = ' ' || c = '\t' || c = '\n'

def isNameStart (c : Char) : Bool := c.isAlpha || c = '_'

def isNameChar (c : Char) : Bool := isNameStart c || c = '-' || c = ':' || c = '.'

@[simp] theorem isBlank_lineFeed : isBlank '\n' = true := rfl

theorem isNameChar_of_isNameStart {c : Char} (h : isNameStart c = true) :
    isNameChar c = true := by
  simp [isNameChar, h]

end Template.Text
