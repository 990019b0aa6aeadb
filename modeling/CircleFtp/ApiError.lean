/-! The error type of the request handlers, with the constructors of `lib/errors.ts`. -/
namespace CircleFtp

structure ApiError where
  status : Nat
  code : String
  message : String
  details : List (String × List String) := []
deriving DecidableEq

namespace ApiError

def badRequest (message : String) (details : List (String × List String) := []) : ApiError :=
  ⟨400, "bad_request", message, details⟩
def unauthorized (message : String := "You need to sign in to do that") : ApiError :=
  ⟨401, "unauthorized", message, []⟩
def forbidden (message : String := "You do not have access to that") : ApiError :=
  ⟨403, "forbidden", message, []⟩
def notFound (message : String := "Not found") : ApiError := ⟨404, "not_found", message, []⟩
def conflict (code message : String) : ApiError := ⟨409, code, message, []⟩
def tooManyRequests (message : String := "Too many attempts. Try again shortly.") : ApiError :=
  ⟨429, "rate_limited", message, []⟩
def upstream (message : String) : ApiError := ⟨502, "upstream_error", message, []⟩
def internal (message : String := "Something went wrong") : ApiError :=
  ⟨500, "internal_error", message, []⟩

end ApiError
end CircleFtp
