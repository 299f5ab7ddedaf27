/-
How a text begins and ends.
-/

namespace StyleBundle.Text

def startsWith (s beginning : String) : Bool := beginning.toList.isPrefixOf s.toList

def endsWith (s ending : String) : Bool := ending.toList.isSuffixOf s.toList

end StyleBundle.Text
