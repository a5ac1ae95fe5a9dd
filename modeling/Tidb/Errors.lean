import Tidb.Lib.Outcome

/-!
# Byte strings and errors

`errors.New` and `errors.Errorf` keep their texts and arguments; the errors that callers tell apart by code
(`terror.ErrorEqual`) are constructors of their own.  `errors.Trace` is the identity.
-/

namespace Tidb

open GoLang

abbrev Bytes := List UInt8

inductive ErrArg where
  | num (n : Int)
  | bytes (b : Bytes)
  | text (s : String)
  | nums (ns : List Int)
  deriving DecidableEq, Repr

inductive Err where
  | new (text : String)
  | errorf (format : String) (args : List ErrArg)
  | errBadNumber
  | errTruncated
  | errOverflow
  | errDataOutOfRange (args : List ErrArg)
  | errTruncatedWrongVal (args : List ErrArg)
  | errWrongValue (args : List ErrArg)
  | errInvalidTime (args : List ErrArg)
  | errInvalidKey (format : String) (args : List ErrArg)
  | errInvalidRecordKey (format : String) (args : List ErrArg)
  | errNotExist
  | errCannotSetNilValue
  | errInvalidHashKeyFlag (format : String) (args : List ErrArg)
  | errInvalidListIndex (format : String) (args : List ErrArg)
  | errInvalidListMetaData
  | errWriteOnSnapshot
  | errWriteConflict (format : String) (args : List ErrArg)
  | withCause (err cause : Err)
  deriving DecidableEq, Repr

abbrev Res := Outcome Err

def errInsufficient : Err := .new "insufficient bytes to decode value"

end Tidb
