import LinkedJson.Server.Shape.Document

/-!
# Shapes of an editor's capabilities

An editor that starts a session tells what it is able to do. A server may leave all of that aside,
but what is told has to be of the right shape.
-/

namespace LinkedJson.Server.Shape

/-! ## Common parts -/

/-- Whether a capability may be registered while the session runs, and other yes-or-no questions. -/
def registration (questions : List String) : Shape :=
  record (Field.mayAll flag ("dynamicRegistration" :: questions))

def refreshing : Shape :=
  record [.may "refreshSupport" flag]

/-- The properties that may be left for later. -/
def lazyProperties : Shape :=
  record [.need "properties" (list text)]

def knownKinds (kind : Shape) : Shape :=
  record [.may "valueSet" (list kind)]

/-- The tags that the editor knows, or just whether it knows any. -/
def knownTags : Shape :=
  either flag (record [.need "valueSet" (list int32)])

/-! ## Workspaces -/

def workspaceEditing : Shape :=
  record
    [.may "documentChanges" flag,
      .may "resourceOperations" (list (word ["create", "rename", "delete"])),
      .may "failureHandling" (word ["abort", "transactional", "textOnlyTransactional", "undo"]),
      .may "normalizesLineEndings" flag,
      .may "changeAnnotationSupport" (record [.may "groupsOnLabel" flag])]

def workspaceSymbols : Shape :=
  record
    [.may "dynamicRegistration" flag, .may "symbolKind" (knownKinds int32),
      .mayEnd "tagSupport" knownTags, .may "resolveSupport" lazyProperties]

def workspaceCapabilities : Shape :=
  record
    [.may "applyEdit" flag, .may "workspaceEdit" workspaceEditing,
      .may "didChangeConfiguration" (registration []),
      .may "didChangeWatchedFiles" (registration ["relativePatternSupport"]),
      .may "symbol" workspaceSymbols, .may "executeCommand" (registration []),
      .may "workspaceFolders" flag, .may "configuration" flag,
      .may "semanticTokens" refreshing, .may "codeLens" refreshing,
      .may "fileOperations" (registration
        ["didCreate", "willCreate", "didRename", "willRename", "didDelete", "willDelete"]),
      .may "inlineValue" refreshing, .may "inlayHint" refreshing, .may "diagnostic" refreshing]

/-! ## Documents -/

def completionItems : Shape :=
  record
    [.may "snippetSupport" flag, .may "commitCharactersSupport" flag,
      .may "documentationFormat" (list markupKind), .may "deprecatedSupport" flag,
      .may "preselectSupport" flag, .mayEnd "tagSupport" knownTags,
      .may "insertReplaceSupport" flag, .may "resolveSupport" lazyProperties,
      .may "insertTextModeSupport" (record [.need "valueSet" (list int32)]),
      .may "labelDetailsSupport" flag]

def completion : Shape :=
  record
    [.may "dynamicRegistration" flag, .may "completionItem" completionItems,
      .may "completionItemKind" (knownKinds int32), .may "contextSupport" flag,
      .may "insertTextMode" int32,
      .may "completionList" (record [.may "itemDefaults" (list text)])]

def signatures : Shape :=
  record
    [.may "dynamicRegistration" flag,
      .may "signatureInformation" (record
        [.may "documentationFormat" (list markupKind),
          .may "parameterInformation" (record [.may "labelOffsetSupport" flag]),
          .may "activeParameterSupport" flag]),
      .may "contextSupport" flag]

def documentSymbols : Shape :=
  record
    [.may "dynamicRegistration" flag, .may "symbolKind" (knownKinds int32),
      .may "hierarchicalDocumentSymbolSupport" flag, .mayEnd "tagSupport" knownTags]

def codeActions : Shape :=
  record
    [.may "dynamicRegistration" flag,
      .may "codeActionLiteralSupport" (record
        [.need "codeActionKind" (record [.need "valueSet" (list text)])]),
      .may "isPreferredSupport" flag, .may "disabledSupport" flag, .may "dataSupport" flag,
      .may "resolveSupport" lazyProperties, .may "honorsChangeAnnotations" flag]

def renameSupport : Shape :=
  record
    [.may "dynamicRegistration" flag, .may "prepareSupport" flag,
      .may "prepareSupportDefaultBehavior" int32, .may "honorsChangeAnnotations" flag]

def publishing : Shape :=
  record
    [.may "relatedInformation" flag, .mayEnd "tagSupport" knownTags, .may "versionSupport" flag,
      .may "codeDescriptionSupport" flag, .may "dataSupport" flag]

def folding : Shape :=
  record
    [.may "dynamicRegistration" flag, .may "rangeLimit" uint32, .may "lineFoldingOnly" flag,
      .may "foldingRangeKind" (knownKinds (word ["comment", "imports", "region"])),
      .may "foldingRange" (record [.may "collapsedText" flag])]

def semanticTokens : Shape :=
  record
    [.may "dynamicRegistration" flag,
      .need "requests" (record
        [.may "range" flag, .may "full" (either flag (named [.may "delta" flag]))]),
      .need "tokenTypes" (list text), .need "tokenModifiers" (list text),
      .need "formats" (list (word ["relative"])), .may "overlappingTokenSupport" flag,
      .may "multilineTokenSupport" flag, .may "serverCancelSupport" flag,
      .may "augmentsSyntaxTokens" flag]

def documentCapabilities : Shape :=
  record
    [.may "synchronization" (registration ["willSave", "willSaveWaitUntil", "didSave"]),
      .may "completion" completion,
      .may "hover" (record
        [.may "dynamicRegistration" flag, .may "contentFormat" (list markupKind)]),
      .may "signatureHelp" signatures, .may "references" (registration []),
      .may "documentHighlight" (registration []), .may "documentSymbol" documentSymbols,
      .may "formatting" (registration []), .may "rangeFormatting" (registration []),
      .may "onTypeFormatting" (registration []), .may "declaration" (registration ["linkSupport"]),
      .may "definition" (registration ["linkSupport"]),
      .may "typeDefinition" (registration ["linkSupport"]),
      .may "implementation" (registration ["linkSupport"]), .may "codeAction" codeActions,
      .may "codeLens" (registration []), .may "documentLink" (registration ["tooltipSupport"]),
      .may "colorProvider" (registration []), .may "rename" renameSupport,
      .may "publishDiagnostics" publishing, .may "foldingRange" folding,
      .may "selectionRange" (registration []), .may "linkedEditingRange" (registration []),
      .may "callHierarchy" (registration []), .may "semanticTokens" semanticTokens,
      .may "moniker" (registration []), .may "typeHierarchy" (registration []),
      .may "inlineValue" (registration []),
      .may "inlayHint" (record
        [.may "dynamicRegistration" flag, .may "resolveSupport" lazyProperties]),
      .may "diagnostic" (registration ["relatedDocumentSupport"])]

/-! ## All capabilities -/

def notebookCapabilities : Shape :=
  record [.need "synchronization" (registration ["executionSummaryReport"])]

def windowCapabilities : Shape :=
  record
    [.may "workDoneProgress" flag,
      .may "showMessage" (record
        [.may "messageActionItem" (record [.may "additionalPropertiesSupport" flag])]),
      .may "showDocument" (record [.need "support" flag])]

def generalCapabilities : Shape :=
  record
    [.may "regularExpressions" (record [.need "engine" text, .may "version" text]),
      .may "markdown" (record
        [.need "parser" text, .may "version" text, .may "allowedTags" (list text)]),
      .may "staleRequestSupport" (record
        [.need "cancel" flag, .need "retryOnContentModified" (list text)]),
      .may "positionEncodings" (list text)]

/-- All that an editor tells of its capabilities. -/
def capabilities : Shape :=
  record
    [.may "workspace" workspaceCapabilities, .may "textDocument" documentCapabilities,
      .may "notebookDocument" notebookCapabilities, .may "window" windowCapabilities,
      .may "general" generalCapabilities, .may "experimental" any]

/-- The parameters that start a session. -/
def setup : Shape :=
  record
    [.may "processId" uint32, .may "rootPath" text, .mayEnd "rootUri" address,
      .may "initializationOptions" any, .need "capabilities" capabilities,
      .mayEnd "trace" (word ["off", "messages", "verbose"]),
      .may "workspaceFolders" (list (record [.need "uri" address, .need "name" text])),
      .may "clientInfo" (record [.need "name" text, .may "version" text]),
      .may "locale" text]

end LinkedJson.Server.Shape
