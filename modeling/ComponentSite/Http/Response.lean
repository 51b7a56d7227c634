/-
  ComponentSite.Http.Response — the answers of a site to requests.

  A request for the path of a route gets the page of that route, rendered with the
  path and the fields of the query. A page that fails is an answer too: it has the
  code of the failure in a header of its own and its message in the body. A page that
  renders without end (`RenderFault.nestedTooDeep`) is answered in this way as
  well, where the program itself would end without an answer.

  A site answers GET, and HEAD like GET without the body.
-/
import ComponentSite.Http.Pattern
import ComponentSite.Http.Query
import ComponentSite.Http.Target
import ComponentSite.Site

namespace ComponentSite.Http

structure Response where
  status : Nat
  contentType : Option String := none
  /-- The code of the failure that this answer reports. -/
  errorCode : Option String := none
  body : String := ""
  deriving DecidableEq, Repr

namespace Response

def notFound : Response := { status := 404 }

def methodNotAllowed : Response := { status := 405 }

def html (text : String) : Response :=
  { status := 200, contentType := some "text/html; charset=utf-8", body := text }

def failure (e : SiteError) : Response :=
  { status := 500
    contentType := some "text/plain; charset=utf-8"
    errorCode := some e.code
    body := "[" ++ e.code ++ "] " ++ e.message }

def ofResult : Except SiteError String → Response
  | .ok text => html text
  | .error e => failure e

def withoutBody (r : Response) : Response := { r with body := "" }

end Response

def pageData (route : Route) (query : String) : Template.Value :=
  .ofFields [
    ("path", .text route.path),
    ("query", .ofFields ((Query.fields query).map fun (name, v) => (name, .text v)))]

def answer (s : Site) (files : FileTree) (method : String) (target : Target) : Response × Site :=
  match Pattern.best? Route.path target.path s.routes with
  | none => (.notFound, s)
  | some route =>
    if method == "GET" || method == "HEAD" then
      let (result, s) := s.renderPage files route.source (pageData route (target.query.getD ""))
      let response := Response.ofResult result
      (if method == "HEAD" then response.withoutBody else response, s)
    else (.methodNotAllowed, s)

end ComponentSite.Http
