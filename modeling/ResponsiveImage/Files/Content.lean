/-!
# The content of files

A file holds bytes.
-/

namespace ResponsiveImage

/-- The bytes of a file. -/
structure Content where bytes ::
  data : List UInt8
deriving DecidableEq, Repr

namespace Content

def size (c : Content) : Nat := c.data.length

/-- One content after another. -/
def append (a b : Content) : Content := bytes (a.data ++ b.data)

end Content

end ResponsiveImage
