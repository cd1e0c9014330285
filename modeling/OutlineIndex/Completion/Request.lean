import OutlineIndex.Data

namespace OutlineIndex

structure Request where
  url : Data
  headers : List (String × String)
  payload : List (String × Data)
  timeout : Nat
  deriving Repr

/-- What happens to a request that is sent. -/
inductive Reply where
  | unreachable
  | timedOut
  | response (status : Int) (body : String)
  deriving DecidableEq, Repr

abbrev Transport := Request → Reply

end OutlineIndex
