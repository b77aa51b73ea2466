import LinkedJson.Server.Shape.Document

/-!
# Shapes of requests

The parameters of the requests that the server knows but does not serve. It looks at them all the
same: parameters of the wrong shape are reported before the request is refused.
-/

namespace LinkedJson.Server.Shape

/-- The mark for reports on the progress of a request. -/
def workMark : Field :=
  .may "workDoneToken" token

/-- The mark for results that are sent in parts. -/
def partMark : Field :=
  .may "partialResultToken" token

def documentField : Field :=
  .need "textDocument" identifier

def rangeField : Field :=
  .need "range" range

def placeFields : List Field :=
  [documentField, .need "position" position]

/-- A request about a document, answered perhaps in parts. -/
def aboutDocument (fields : List Field) : Shape :=
  named (documentField :: fields ++ [workMark, partMark])

/-- A request about a place in a document, answered at once. -/
def aboutPlace (fields : List Field) : Shape :=
  named (placeFields ++ fields ++ [workMark])

/-- A request about a place in a document, answered perhaps in parts. -/
def aboutPlaceInParts (fields : List Field) : Shape :=
  named (placeFields ++ fields ++ [workMark, partMark])

def aboutItem (tags : Shape) : Shape :=
  named [.need "item" (hierarchyItem tags), workMark, partMark]

/-- How a document is to be formatted. Options of other names are plain values. -/
def formatting : Field :=
  .need "options" (namedWith
    [.need "tabSize" uint32, .need "insertSpaces" flag, .may "trimTrailingWhitespace" flag,
      .may "insertFinalNewline" flag, .may "trimFinalNewlines" flag]
    (either flag (either int32 text)))

def completionContext : Shape :=
  record [.need "triggerKind" int32, .may "triggerCharacter" text]

/-- What brought a look at signatures about. -/
def signatureContext : Shape :=
  record
    [.need "triggerKind" int32, .may "triggerCharacter" text, .need "isRetrigger" flag,
      .may "activeSignatureHelp" signatureHelp]

/-- What brought a look at actions about. -/
def actionContext : Shape :=
  record
    [.need "diagnostics" (list diagnostic), .may "only" (list text), .may "triggerKind" int32]

/-- Where a debugger has stopped. -/
def debugContext : Shape :=
  record [.need "frameId" int32, .need "stoppedLocation" range]

def color : Shape :=
  record
    [.need "red" number, .need "green" number, .need "blue" number, .need "alpha" number]

/-- Files, each with texts under some names. -/
def files (names : List String) : Shape :=
  record [.need "files" (list (record (names.map (.need · text))))]

/-- The parameters of the requests that are known but not served. -/
def unserved : List (String × Shape) :=
  [("textDocument/declaration", aboutPlaceInParts []),
    ("textDocument/typeDefinition", aboutPlaceInParts []),
    ("textDocument/implementation", aboutPlaceInParts []),
    ("textDocument/references",
      aboutPlaceInParts [.need "context" (record [.need "includeDeclaration" flag])]),
    ("textDocument/prepareCallHierarchy", aboutPlace []),
    ("callHierarchy/incomingCalls", aboutItem (list int32)),
    ("callHierarchy/outgoingCalls", aboutItem (list int32)),
    ("textDocument/prepareTypeHierarchy", aboutPlace []),
    ("typeHierarchy/supertypes", aboutItem int32),
    ("typeHierarchy/subtypes", aboutItem int32),
    ("textDocument/documentHighlight", aboutPlaceInParts []),
    ("textDocument/documentLink", aboutDocument []),
    ("documentLink/resolve", documentLink),
    ("textDocument/hover", aboutPlace []),
    ("textDocument/codeLens", aboutDocument []),
    ("codeLens/resolve", codeLens),
    ("textDocument/foldingRange", aboutDocument []),
    ("textDocument/selectionRange", aboutDocument [.need "positions" (list position)]),
    ("textDocument/documentSymbol", aboutDocument []),
    ("textDocument/semanticTokens/full", aboutDocument []),
    ("textDocument/semanticTokens/full/delta", aboutDocument [.need "previousResultId" text]),
    ("textDocument/semanticTokens/range", aboutDocument [rangeField]),
    ("textDocument/inlineValue",
      named [documentField, rangeField, .need "context" debugContext, workMark]),
    ("textDocument/inlayHint", named [documentField, rangeField, workMark]),
    ("inlayHint/resolve", hint),
    ("textDocument/moniker", aboutPlaceInParts []),
    ("textDocument/completion", aboutPlaceInParts [.may "context" completionContext]),
    ("completionItem/resolve", completionItem),
    ("textDocument/diagnostic",
      aboutDocument [.may "identifier" text, .may "previousResultId" text]),
    ("workspace/diagnostic",
      named
        [.may "identifier" text,
          .need "previousResultIds" (list (record [.need "uri" address, .need "value" text])),
          workMark, partMark]),
    ("textDocument/signatureHelp", aboutPlace [.may "context" signatureContext]),
    ("textDocument/codeAction", aboutDocument [rangeField, .need "context" actionContext]),
    ("codeAction/resolve", codeAction),
    ("textDocument/documentColor", aboutDocument []),
    ("textDocument/colorPresentation", aboutDocument [.need "color" color, rangeField]),
    ("textDocument/formatting", named [documentField, formatting, workMark]),
    ("textDocument/rangeFormatting", named [documentField, rangeField, formatting, workMark]),
    ("textDocument/onTypeFormatting", named (placeFields ++ [.need "ch" text, formatting])),
    ("textDocument/rename", aboutPlace [.need "newName" text]),
    ("textDocument/prepareRename", record placeFields),
    ("textDocument/linkedEditingRange", aboutPlace []),
    ("textDocument/willSaveWaitUntil", record [documentField, .need "reason" int32]),
    ("workspace/symbol", named [.need "query" text, workMark, partMark]),
    ("workspaceSymbol/resolve", workspaceSymbol),
    ("workspace/willCreateFiles", files ["uri"]),
    ("workspace/willRenameFiles", files ["oldUri", "newUri"]),
    ("workspace/willDeleteFiles", files ["uri"]),
    ("workspace/executeCommand",
      named [.need "command" text, .maySkip "arguments" (list any), workMark])]

end LinkedJson.Server.Shape
