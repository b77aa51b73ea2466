import LinkedJson.Server.Shape.Basic

/-!
# Shapes of what messages say about documents

Places in documents, edits, diagnostics and the items that a server may have offered for them.
-/

namespace LinkedJson.Server.Shape

/-! ## Places -/

def position : Shape :=
  record [.need "line" uint32, .need "character" uint32]

def range : Shape :=
  record [.need "start" position, .need "end" position]

def location : Shape :=
  record [.need "uri" address, .need "range" range]

def identifier : Shape :=
  record [.need "uri" address]

/-- The name of a document and perhaps its version. -/
def versionedIdentifier : Shape :=
  record [.need "uri" address, .may "version" int32]

/-- The mark of a piece of work, under which its progress is reported. -/
def token : Shape :=
  either int32 text

/-! ## Texts -/

def markupKind : Shape :=
  word ["plaintext", "markdown"]

/-- A plain text, or a text with its kind of markup. -/
def documentation : Shape :=
  either text (record [.need "kind" markupKind, .need "value" text])

def command : Shape :=
  record [.need "title" text, .need "command" text, .may "arguments" (list any)]

/-! ## Edits -/

def textEdit : Shape :=
  record [.need "range" range, .need "newText" text]

def documentEdit : Shape :=
  record [.need "textDocument" versionedIdentifier, .need "edits" (list textEdit)]

/-- What to do about a file that exists already. -/
def overwriting : Shape :=
  record (Field.mayAll flag ["overwrite", "ignoreIfExists"])

/-- What to do about a file that is to be deleted. -/
def deleting : Shape :=
  record (Field.mayAll flag ["recursive", "ignoreIfNotExists"] ++ [.may "annotationId" text])

/-- The creation, renaming or deletion of a file. -/
def fileOperation : Shape :=
  tagged "kind"
    [("create",
        record [.need "uri" address, .may "options" overwriting, .may "annotationId" text]),
      ("rename",
        record [.need "oldUri" address, .need "newUri" address, .may "options" overwriting,
          .may "annotationId" text]),
      ("delete", record [.need "uri" address, .may "options" deleting])]

def changeNote : Shape :=
  record [.need "label" text, .may "needsConfirmation" flag, .may "description" text]

/-- Changes of several documents. -/
def workspaceEdit : Shape :=
  record
    [.mayEnd "changes" (dictionary address (list textEdit)),
      .may "documentChanges" (list (either fileOperation documentEdit)),
      .may "changeAnnotations" (dictionary any changeNote)]

/-! ## Diagnostics -/

/-- A place that has to do with a diagnostic. -/
def relatedInformation : Shape :=
  record [.need "location" location, .need "message" text]

def diagnostic : Shape :=
  record
    [.need "range" range, .may "severity" int32, .may "code" token,
      .may "codeDescription" (record [.need "href" address]), .may "source" text,
      .need "message" text, .may "relatedInformation" (list relatedInformation),
      .may "tags" (list int32), .may "data" any]

/-! ## Offered items -/

def documentLink : Shape :=
  record [.need "range" range, .may "target" address, .may "tooltip" text, .may "data" any]

/-- A command that is shown in a document. -/
def codeLens : Shape :=
  record [.need "range" range, .may "command" command, .may "data" any]

def codeAction : Shape :=
  record
    [.need "title" text, .may "kind" text, .may "diagnostics" (list diagnostic),
      .may "edit" workspaceEdit, .may "command" command, .may "isPreferred" flag,
      .may "disabled" (record [.need "reason" text]), .may "data" any]

def hintPart : Shape :=
  record
    [.need "value" text, .may "tooltip" documentation, .may "location" location,
      .may "command" command]

/-- A hint that is shown inside a text. -/
def hint : Shape :=
  record
    [.need "position" position, .need "label" (either text (list hintPart)), .may "kind" int32,
      .may "textEdits" (list textEdit), .may "tooltip" documentation, .may "paddingLeft" flag,
      .may "paddingRight" flag, .may "data" any]

def insertReplaceEdit : Shape :=
  record [.need "newText" text, .need "insert" range, .need "replace" range]

def completionItem : Shape :=
  record
    [.need "label" text,
      .may "labelDetails" (record (Field.mayAll text ["detail", "description"])), .may "kind" int32,
      .may "detail" text, .may "documentation" documentation, .may "deprecated" flag,
      .may "preselect" flag, .may "sortText" text, .may "filterText" text,
      .may "insertText" text, .may "insertTextFormat" int32, .may "insertTextMode" int32,
      .may "textEdit" (either textEdit insertReplaceEdit),
      .may "additionalTextEdits" (list textEdit), .may "command" command,
      .may "commitCharacters" (list text), .may "data" any, .may "tags" (list int32)]

/-- A parameter of a signature, named by a text or by its place in the signature. -/
def parameterInformation : Shape :=
  record [.need "label" (either text (pair uint32)), .may "documentation" documentation]

def signatureInformation : Shape :=
  record
    [.need "label" text, .may "documentation" documentation,
      .may "parameters" (list parameterInformation), .may "activeParameter" uint32]

def signatureHelp : Shape :=
  record
    [.need "signatures" (list signatureInformation), .may "activeSignature" uint32,
      .may "activeParameter" uint32]

/-- A member of a hierarchy, whose tags have a shape. -/
def hierarchyItem (tags : Shape) : Shape :=
  record
    [.need "name" text, .need "kind" int32, .may "tags" tags, .may "detail" text,
      .need "uri" address, .need "range" range, .need "selectionRange" range,
      .may "data" any]

def workspaceSymbol : Shape :=
  record
    [.need "name" text, .need "kind" int32, .may "tags" (list int32),
      .may "containerName" text, .need "location" (either location identifier),
      .may "data" any]

end LinkedJson.Server.Shape
