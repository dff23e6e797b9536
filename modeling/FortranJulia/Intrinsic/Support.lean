/-!
The support file that every generated program includes: arrays by FORTRAN type, conversion of
input, and functions for intrinsic procedures that Julia has no equal of.
-/

namespace FortranJulia.Intrinsic

set_option autoImplicit false

/-- The name of the support file unless another one is chosen. -/
def supportFile : String := "macros.jl"

private def supportHeading : List String :=
  ["# macros.jl",
   "# Runtime support for programs translated from FORTRAN 77.",
   ""]

private def createArray : List String :=
  ["# create_array allocates a zero initialized array for a FORTRAN type name.",
   "function create_array(t, dims::Int...)",
   "\tif t == \"INTEGER\"",
   "\t\treturn zeros(Int, dims...)",
   "\telseif t == \"REAL\" || t == \"DOUBLE PRECISION\"",
   "\t\treturn zeros(Float64, dims...)",
   "\telseif t == \"COMPLEX\"",
   "\t\treturn zeros(ComplexF64, dims...)",
   "\telseif t == \"LOGICAL\"",
   "\t\treturn falses(dims...)",
   "\telseif t == \"CHARACTER\"",
   "\t\treturn fill(\"\", dims...)",
   "\tend",
   "\treturn zeros(Float64, dims...)",
   "end",
   ""]

private def tryParse : List String :=
  ["# try_parse reports whether str parses as a value of type T.",
   "function try_parse(str, T)",
   "\treturn tryparse(T, strip(str)) !== nothing",
   "end",
   ""]

private def parseInput : List String :=
  ["# parse_input converts a line read from input to an integer, a float or",
   "# leaves it as a string, in that order of preference.",
   "function parse_input(a)",
   "\tif try_parse(a, Int)",
   "\t\treturn parse(Int, strip(a))",
   "\telseif try_parse(a, Float64)",
   "\t\treturn parse(Float64, strip(a))",
   "\tend",
   "\treturn a",
   "end",
   ""]

private def indexOf : List String :=
  ["# fortran_index returns the position of needle in haystack or 0.",
   "function fortran_index(haystack, needle)",
   "\tr = findfirst(needle, haystack)",
   "\treturn r === nothing ? 0 : first(r)",
   "end",
   ""]

private def readValues : List String :=
  ["# read_values reads one record and splits it into values, the way list",
   "# directed input accepts blanks and commas as separators.",
   "function read_values(io::IO=stdin)",
   "\tline = readline(io)",
   "\treturn [parse_input(s) for s in split(line, r\"[\\s,]+\"; keepempty=false)]",
   "end",
   ""]

private def getArg : List String :=
  ["# get_arg returns the index'th of the passed arguments.",
   "function get_arg(index, args...)",
   "\treturn args[index]",
   "end"]

/-- The lines of the support file. -/
def supportLines : List String :=
  supportHeading ++ createArray ++ tryParse ++ parseInput ++ indexOf ++ readValues ++ getArg

/-- The contents of the support file. -/
def supportText : String :=
  String.join (supportLines.map (· ++ "\n"))

end FortranJulia.Intrinsic
