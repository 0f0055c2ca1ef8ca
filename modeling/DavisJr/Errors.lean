import DavisJr.Http

/- `errors.rs`: the error of path handling and registration (`ServerError`) and the
   error of handlers and dispatch (`Error`). A `ServerError` met by `?` in code that
   returns `Error` becomes an internal server error with the same text. -/
namespace DavisJr

structure ServerError where
  msg : String
  deriving DecidableEq, Repr

inductive Error where
  | statusCode (sc : StatusCode) (msg : String)
  | internalServerError (msg : String)
  deriving DecidableEq, Repr

/-- `From<T: std::error::Error> for Error`, at `ServerError`. -/
def Error.ofServerError (e : ServerError) : Error := .internalServerError e.msg

end DavisJr
