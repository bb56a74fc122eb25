import Trance.Checking.Ty

/-!
# Built-in suggestions

What a call of a built-in suggestion produces. Arguments of built-ins are not checked, so a
name and a type are all there is to know about each.
-/

namespace Trance.Builtin

/-- The names of the built-ins, grouped by the type that they produce. -/
def catalog : List (Ty × List String) :=
  [(.number,
     ["Sin", "Cos", "Tan", "Sqrt", "Log", "Log10", "Abs", "Floor", "Ceil", "Round", "Min", "Max",
      "Pow", "Factorial", "Gcd", "Lcm", "Fibonacci", "Clamp", "Random", "RandomRange", "ToInt",
      "ToDouble", "HashString", "HashNumber", "SimpleRandom", "Mean", "Median", "Mode",
      "StandardDeviation", "Variance", "Range", "Percentile", "Correlation", "GetCpuCount",
      "GetFileSize"]),
   (.text,
     ["ToUpper", "ToLower", "Trim", "Reverse", "Capitalize", "RemoveDuplicates",
      "UniqueCharacters", "ReverseWords", "TitleCase", "Replace", "Substring", "Repeat",
      "PadLeft", "PadRight", "ToString", "ArrayJoin", "ReadFile", "GetFileExtension",
      "GetFileName", "GetParentDirectory", "GetCurrentDirectory", "GetEnv", "GetOperatingSystem",
      "GetArchitecture", "GetHostname", "GetUsername", "GetHomeDirectory", "GetTempDirectory"]),
   (.boolean,
     ["IsPrime", "IsEmpty", "IsWhitespace", "StartsWith", "EndsWith", "Contains", "ArrayIsEmpty",
      "ArrayContains", "ToBoolean", "FileExists", "IsFile", "IsDirectory", "AreAnagrams",
      "IsPalindrome", "IsLeapYear", "IsValidEmail", "IsValidUrl", "IsValidPhoneNumber",
      "IsAlphanumeric", "IsAlphabetic", "IsNumeric", "IsLowercase", "IsUppercase", "IsInRange",
      "MatchesPattern"]),
   (.array,
     ["Split", "ArrayReverse", "ArraySort", "ArrayTake", "ArraySkip", "ArraySlice",
      "ArrayDistinct", "ListDirectory", "GetArgs", "LinearRegression"]),
   (.number,
     ["Length", "IndexOf", "CountOccurrences", "ArrayLength", "ArrayIndexOf", "ArraySum",
      "ArrayAverage", "ArrayMin", "ArrayMax", "ArrayCount"]),
   (.any, ["ArrayGet", "ArrayFirst", "ArrayLast"]),
   (.void,
     ["Observe", "drift", "Drift", "DeepTrance", "HypnoticCountdown", "TranceInduction",
      "HypnoticVisualization", "WriteFile", "AppendFile", "DeleteFile", "CreateDirectory",
      "CopyFile", "RenameFile", "SetEnv", "Exit"]),
   (.number,
     ["CurrentTimestamp", "DayOfWeek", "DayOfYear", "DaysInMonth", "CurrentYear", "CurrentMonth",
      "CurrentDay", "CurrentHour", "CurrentMinute", "CurrentSecond"]),
   (.text, ["CurrentDate", "CurrentTime", "CurrentDateTime", "FormatDateTime"])]

/-- The type that a call of a built-in produces, if the name is one. -/
def returnType? (name : String) : Option Ty :=
  (catalog.find? (·.2.contains name)).map (·.1)

end Trance.Builtin
