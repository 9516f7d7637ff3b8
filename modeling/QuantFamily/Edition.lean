/-!
# Editions

The definition language exists in several editions. They share one grammar and differ in
the characters of names, the operators and quantifier signs they know, the order in which
gates are written, and in what is announced while a text is read.
-/

namespace QuantFamily

/-- An edition of the definition language and its tool.

* `full`: names in any script, all operators, gates written after their operands.
* `classic`: basic Latin names, the operators conjunction, disjunction and parity.
* `split`: as `classic`, without looking for the converter before it is called.
* `tracing`: the language of `split`; every step is announced, and the formula is listed
  after each text. -/
inductive Edition where
  | full
  | classic
  | split
  | tracing
deriving DecidableEq

namespace Edition

/-- Whether names may use any script and all operators are known. -/
def isExtended : Edition -> Bool
  | .full => true
  | _ => false

/-- Whether the absence of the converter is reported before it is called. -/
def looksForConverter : Edition -> Bool
  | .full | .classic => true
  | _ => false

/-- Whether steps are announced even when nobody asked for it. -/
def alwaysAnnounces : Edition -> Bool
  | .tracing => true
  | _ => false

/-- Whether the grouping of a definition is announced. -/
def announcesGroupings : Edition -> Bool
  | .full => true
  | _ => false

/-- Whether variables and the output block are announced after they have been recorded
rather than before. -/
def announcesAfterwards : Edition -> Bool
  | .tracing => true
  | _ => false

/-- Whether the formula is listed at the end of each text. -/
def listsAfterwards : Edition -> Bool
  | .tracing => true
  | _ => false

end Edition

end QuantFamily
