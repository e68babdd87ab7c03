import Template.CharRef.Decode
import Template.CharRef.Encode

namespace Template.CharRef

def decodeString (ctx : Context) (s : String) : String := String.ofList (decode ctx s.toList)

def encodeString (ctx : Context) (s : String) : String := String.ofList (encode ctx s.toList)

end Template.CharRef
