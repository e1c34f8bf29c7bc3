/-!
# Names of the built-in types

The fully qualified names of the types that lowering, analysis and execution refer to.
-/

namespace ScopedIR.TypeName

/-- The top type: every value can be used where it is expected. -/
def any : String := "org.ek9.lang::Any"

/-- The type of calls that return nothing. -/
def void : String := "org.ek9.lang::Void"

/-- Truth values. -/
def boolean : String := "org.ek9.lang::Boolean"

/-- Integers of 64 bits. -/
def integer : String := "org.ek9.lang::Integer"

/-- Texts. -/
def string : String := "org.ek9.lang::String"

/-- The base of all exceptions; a handler of this type takes every exception. -/
def exception : String := "org.ek9.lang::Exception"

/-- Lists. -/
def list : String := "org.ek9.lang::List"

/-- Positions in a list. -/
def iterator : String := "org.ek9.lang::Iterator"

/-- The capability of input and output. -/
def io : String := "org.ek9.lang::IO"

/-- The standard output stream. -/
def stdout : String := "org.ek9.lang::Stdout"

/-- The standard error stream. -/
def stderr : String := "org.ek9.lang::Stderr"

end ScopedIR.TypeName
